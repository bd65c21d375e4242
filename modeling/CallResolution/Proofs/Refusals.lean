import CallResolution.Proofs.Sources

/-!
What loading refuses. Class names are judged first, then the methods one by one, each against
those before it. The first declaration that is refused decides the error, and where a method is
declared, with its class or apart from it, makes no difference.
-/

namespace CallResolution

section Refusal

variable {ε σ α : Type} {refuses : List α → α → ε → Prop}

/-- The item at the position is refused for the sake of those before it. -/
def RefusedAt (refuses : List α → α → ε → Prop) (items : List α) (position : Nat) (error : ε) :
    Prop :=
  ∃ item, items[position]? = some item ∧ refuses (items.take position) item error

def FirstRefused (refuses : List α → α → ε → Prop) (items : List α) (error : ε) : Prop :=
  ∃ position, RefusedAt refuses items position error ∧
    ∀ earlier < position, ∀ other, ¬ RefusedAt refuses items earlier other

theorem refusedAt_length {done rest : List α} {item : α} {error : ε} :
    RefusedAt refuses (done ++ item :: rest) done.length error ↔ refuses done item error := by
  simp [RefusedAt]

theorem foldlM_reports_after {step : σ → α → Except ε σ} (inv : List α → σ → Prop)
    (fails : ∀ done item state error, inv done state →
      (step state item = .error error ↔ refuses done item error))
    (accepts : ∀ done item state next, inv done state → step state item = .ok next →
      inv (done ++ [item]) next)
    {done : List α} {state : σ} (start : inv done state) {items : List α}
    (clean : ∀ position < done.length, ∀ error,
      ¬ RefusedAt refuses (done ++ items) position error) :
    (∃ final, items.foldlM step state = .ok final) ∧
        (∀ position error, ¬ RefusedAt refuses (done ++ items) position error) ∨
      ∃ error, items.foldlM step state = .error error ∧
        ∀ other, FirstRefused refuses (done ++ items) other ↔ other = error := by
  induction items generalizing done state with
  | nil =>
      refine .inl ⟨⟨state, rfl⟩, ?_⟩
      intro position error refused
      obtain ⟨item, listed, _⟩ := id refused
      have bound := (List.getElem?_eq_some_iff.mp listed).1
      exact clean position (by simpa using bound) error refused
  | cons item items ih =>
      rw [List.foldlM_cons]
      cases stepped : step state item with
      | ok next =>
          have cleaner : ∀ position < (done ++ [item]).length, ∀ error,
              ¬ RefusedAt refuses ((done ++ [item]) ++ items) position error := by
            intro position bound error refused
            rw [List.append_assoc, List.singleton_append] at refused
            rw [List.length_append, List.length_singleton] at bound
            by_cases last : position = done.length
            · rw [last, refusedAt_length, ← fails done item state error start, stepped] at refused
              cases refused
            · exact clean position (by omega) error refused
          have rest := ih (accepts done item state next start stepped) cleaner
          rw [List.append_assoc, List.singleton_append] at rest
          exact rest
      | error error =>
          refine .inr ⟨error, rfl, ?_⟩
          have here := (fails done item state error start).mp stepped
          intro other
          constructor
          · rintro ⟨position, refused, first⟩
            rcases Nat.lt_trichotomy position done.length with before | same | after
            · exact absurd refused (clean position before other)
            · rw [same, refusedAt_length, ← fails done item state other start, stepped] at refused
              exact (Except.error.inj refused).symm
            · exact absurd (refusedAt_length.mpr here) (first done.length after error)
          · intro same
            exact ⟨done.length, refusedAt_length.mpr (same ▸ here), clean⟩

/-- A run whose steps fail where the next item is refused fails with the first refusal, and
succeeds if there is none. -/
theorem foldlM_reports {step : σ → α → Except ε σ} (inv : List α → σ → Prop)
    (fails : ∀ done item state error, inv done state →
      (step state item = .error error ↔ refuses done item error))
    (accepts : ∀ done item state next, inv done state → step state item = .ok next →
      inv (done ++ [item]) next)
    {state : σ} (start : inv [] state) (items : List α) :
    (∀ error, items.foldlM step state = .error error ↔ FirstRefused refuses items error) ∧
      ((∃ final, items.foldlM step state = .ok final) ↔
        ∀ position error, ¬ RefusedAt refuses items position error) := by
  have clean : ∀ position < ([] : List α).length, ∀ error,
      ¬ RefusedAt refuses ([] ++ items) position error := by simp
  rcases foldlM_reports_after inv fails accepts start clean with
    ⟨⟨final, succeeded⟩, none⟩ | ⟨error, failed, first⟩
  · rw [List.nil_append] at none
    refine ⟨?_, fun _ => none, fun _ => ⟨final, succeeded⟩⟩
    intro error
    constructor
    · intro failed
      cases succeeded.symm.trans failed
    · rintro ⟨position, refused, _⟩
      exact absurd refused (none position error)
  · rw [List.nil_append] at first
    refine ⟨?_, ?_, ?_⟩
    · intro other
      rw [first, failed, Except.error.injEq]
      exact eq_comm
    · rintro ⟨final, succeeded⟩
      cases succeeded.symm.trans failed
    · intro none
      obtain ⟨position, refused, _⟩ := (first error).mpr rfl
      exact absurd refused (none position error)

end Refusal

namespace DetachedMethod

def Distinct (first second : DetachedMethod) : Prop :=
  first.className ≠ second.className ∨
    first.method.signature.name ≠ second.method.signature.name ∨
    first.method.signature.params ≠ second.method.signature.params

instance : DecidableRel Distinct := fun _ _ => inferInstanceAs (Decidable (_ ∨ _ ∨ _))

end DetachedMethod

namespace Program

inductive RefusesClass (done : List ClassDecl) (decl : ClassDecl) : LoadError → Prop where
  | repeated {other : ClassDecl} (earlier : other ∈ done) (name : other.name = decl.name) :
      RefusesClass done decl (.duplicateClass decl.name)

/-- A method is refused if its class is not registered, or if an earlier one agrees with it in
class, name and parameters. How the two are written plays no part. -/
inductive RefusesMethod (classNames : List String) (done : List DetachedMethod)
    (source : DetachedMethod) : LoadError → Prop where
  | unknownClass (absent : source.className ∉ classNames) :
      RefusesMethod classNames done source (.unknownEnclosingClass source.className)
  | repeated {other : DetachedMethod} (earlier : other ∈ done)
      (className : other.className = source.className)
      (name : other.method.signature.name = source.method.signature.name)
      (params : other.method.signature.params = source.method.signature.params) :
      RefusesMethod classNames done source
        (.duplicateMethod source.className source.method.signature)

end Program

namespace Registry

open Program

variable {registry : Registry} {classes : List ClassDecl} {done : List DetachedMethod}

theorem addClass_error_iff (held : registry.Holds classes []) {decl : ClassDecl}
    {error : LoadError} : registry.addClass decl = .error error ↔ RefusesClass classes decl error := by
  rcases addClass_cases held decl with ⟨known, failed⟩ | ⟨unknown, next, added, _⟩
  · rw [failed]
    obtain ⟨other, earlier, name⟩ := List.mem_map.mp known
    constructor
    · intro same
      cases same
      exact .repeated earlier name
    · rintro ⟨_, _⟩
      rfl
  · rw [added]
    constructor
    · intro same
      cases same
    · rintro ⟨earlier, name⟩
      exact absurd (List.mem_map.mpr ⟨_, earlier, name⟩) unknown

theorem mem_identities_iff {source : DetachedMethod} :
    source.identity ∈ done.map DetachedMethod.identity ↔
      ∃ other ∈ done, other.className = source.className ∧
        other.method.signature.name = source.method.signature.name ∧
        other.method.signature.params = source.method.signature.params := by
  rw [List.mem_map]
  constructor
  · rintro ⟨other, earlier, same⟩
    obtain ⟨className, signature⟩ := Prod.mk.inj same
    exact ⟨other, earlier, className, congrArg Signature.name signature,
      congrArg Signature.params signature⟩
  · rintro ⟨other, earlier, className, name, params⟩
    have signature : other.method.signature = source.method.signature := by
      cases otherSignature : other.method.signature
      cases sourceSignature : source.method.signature
      simp_all
    exact ⟨other, earlier, Prod.ext className signature⟩

theorem addDetached_error_iff (held : registry.Holds classes done) {source : DetachedMethod}
    {error : LoadError} :
    registry.addDetached source = .error error ↔
      RefusesMethod (classes.map ClassDecl.name) done source error := by
  have outcome := addDetached_cases held source
  rw [mem_identities_iff] at outcome
  rcases outcome with ⟨unknown, failed⟩ | ⟨known, ⟨duplicate, failed⟩ | ⟨fresh, next, added, _⟩⟩
  · rw [failed]
    constructor
    · intro same
      cases same
      exact .unknownClass unknown
    · intro refused
      cases refused with
      | unknownClass => rfl
      | repeated earlier className =>
          -- an earlier method was accepted, so its class is registered
          exact absurd (className ▸ held.program.admissible.enclosed _ earlier) unknown
  · rw [failed]
    obtain ⟨other, earlier, className, name, params⟩ := duplicate
    constructor
    · intro same
      cases same
      exact .repeated earlier className name params
    · intro refused
      cases refused with
      | unknownClass unknown => exact absurd known unknown
      | repeated => rfl
  · rw [added]
    constructor
    · intro same
      cases same
    · intro refused
      cases refused with
      | unknownClass unknown => exact absurd known unknown
      | repeated earlier className name params =>
          exact absurd ⟨_, earlier, className, name, params⟩ fresh

theorem holds_of_addClass (held : registry.Holds classes []) {decl : ClassDecl}
    {next : Registry} (added : registry.addClass decl = .ok next) :
    next.Holds (classes ++ [decl]) [] := by
  rcases addClass_cases held decl with ⟨_, failed⟩ | ⟨_, _, again, grows⟩
  · cases failed.symm.trans added
  · cases again.symm.trans added
    exact grows

theorem holds_of_addDetached (held : registry.Holds classes done) {source : DetachedMethod}
    {next : Registry} (added : registry.addDetached source = .ok next) :
    next.Holds classes (done ++ [source]) := by
  rcases addDetached_cases held source with
    ⟨_, failed⟩ | ⟨_, ⟨_, failed⟩ | ⟨_, _, again, grows⟩⟩
  · cases failed.symm.trans added
  · cases failed.symm.trans added
  · cases again.symm.trans added
    exact grows

theorem register_reports (classes : List ClassDecl) :
    (∀ error, classes.foldlM addClass empty = .error error ↔
      FirstRefused RefusesClass classes error) ∧
    ((∃ registered, classes.foldlM addClass empty = .ok registered) ↔
      ∀ position error, ¬ RefusedAt RefusesClass classes position error) := by
  refine foldlM_reports (fun done registry => registry.Holds done []) ?_ ?_ empty_holds classes
  · exact fun _ _ _ _ held => addClass_error_iff held
  · exact fun _ _ _ _ held added => holds_of_addClass held added

theorem addAll_reports (held : registry.Holds classes []) (sources : List DetachedMethod) :
    (∀ error, sources.foldlM addDetached registry = .error error ↔
      FirstRefused (RefusesMethod (classes.map ClassDecl.name)) sources error) ∧
    ((∃ final, sources.foldlM addDetached registry = .ok final) ↔ ∀ position error,
      ¬ RefusedAt (RefusesMethod (classes.map ClassDecl.name)) sources position error) := by
  refine foldlM_reports (fun done registry => registry.Holds classes done) ?_ ?_ held sources
  · exact fun _ _ _ _ held => addDetached_error_iff held
  · exact fun _ _ _ _ held added => holds_of_addDetached held added

theorem load_cases (classes : List ClassDecl) (detached : List DetachedMethod) :
    (classes.map ClassDecl.name).Nodup ∧ (∃ registered, registered.Holds classes [] ∧
        classes.foldlM addClass empty = .ok registered ∧
        load classes detached = (sources classes detached).foldlM addDetached registered) ∨
      ¬ (classes.map ClassDecl.name).Nodup ∧ ∃ name,
        classes.foldlM addClass empty = .error (.duplicateClass name) ∧
        load classes detached = .error (.duplicateClass name) := by
  rw [load_eq_addDetached]
  rcases register_decides classes with
    ⟨⟨registered, registering, held⟩, unique⟩ | ⟨⟨error, failing⟩, repeated⟩
  · refine .inl ⟨unique, registered, held, registering, ?_⟩
    rw [registering]
    rfl
  · obtain ⟨position, ⟨decl, _, refused⟩, _⟩ := ((register_reports classes).1 error).mp failing
    cases refused
    refine .inr ⟨repeated, decl.name, failing, ?_⟩
    rw [failing]
    rfl

end Registry

namespace Program

variable {classes : List ClassDecl}

theorem not_duplicateClass_of_firstRefused {classNames : List String}
    {sources : List DetachedMethod} {name : String} :
    ¬ FirstRefused (RefusesMethod classNames) sources (.duplicateClass name) := by
  rintro ⟨_, ⟨_, _, refused⟩, _⟩
  cases refused

theorem className_of_mem_declaredMethods {source : DetachedMethod}
    (member : source ∈ declaredMethods classes) :
    source.className ∈ classes.map ClassDecl.name := by
  obtain ⟨decl, listed, declared⟩ := List.mem_flatMap.mp member
  obtain ⟨method, _, same⟩ := List.mem_map.mp declared
  rw [← same]
  exact List.mem_map_of_mem listed

theorem not_duplicateMethod_of_distinct {classNames : List String}
    {sources : List DetachedMethod} (distinct : sources.Pairwise DetachedMethod.Distinct)
    {position : Nat} {name : String} {signature : Signature} :
    ¬ RefusedAt (RefusesMethod classNames) sources position (.duplicateMethod name signature) := by
  rintro ⟨source, listed, refused⟩
  cases refused with
  | repeated earlier className sameName params =>
      obtain ⟨bound, same⟩ := List.getElem?_eq_some_iff.mp listed
      have split : sources = sources.take position ++ source :: sources.drop (position + 1) := by
        rw [← same, ← List.drop_eq_getElem_cons bound, List.take_append_drop]
      rw [split, List.pairwise_append] at distinct
      rcases distinct.2.2 _ earlier source (by simp) with other | other | other
      · exact other className
      · exact other sameName
      · exact other params

/-- Loading fails for the first declaration that is refused, in the way it is refused, and for
nothing else. -/
theorem load_reports_first_refusal (classes : List ClassDecl) (detached : List DetachedMethod) :
    let names := classes.map ClassDecl.name
    let methods := sources classes detached
    (∀ name, load classes detached = .error (.duplicateClass name) ↔
      FirstRefused RefusesClass classes (.duplicateClass name)) ∧
    ((∃ name, load classes detached = .error (.duplicateClass name)) ↔ ¬ names.Nodup) ∧
    (names.Nodup →
      (∀ error, load classes detached = .error error ↔
        FirstRefused (RefusesMethod names) methods error) ∧
      ((∃ program, load classes detached = .ok program) ↔
        ∀ position error, ¬ RefusedAt (RefusesMethod names) methods position error)) ∧
    (∀ name, load classes detached = .error (.unknownEnclosingClass name) →
      name ∉ names ∧ ∃ source ∈ detached, source.className = name) ∧
    (methods.Pairwise DetachedMethod.Distinct → ∀ name signature,
      load classes detached ≠ .error (.duplicateMethod name signature)) := by
  intro names methods
  have registering := (Registry.register_reports classes).1
  simp only [load_eq_error_iff, load_eq_ok_iff, ne_eq]
  rcases Registry.load_cases classes detached with
    ⟨unique, registered, held, succeeded, loading⟩ | ⟨repeated, first, failed, loading⟩
  · have reports := Registry.addAll_reports held methods
    rw [loading]
    refine ⟨?_, ?_, fun _ => reports, ?_, ?_⟩
    · intro name
      rw [reports.1, ← registering, succeeded]
      simp [not_duplicateClass_of_firstRefused]
    · constructor
      · rintro ⟨name, failing⟩
        exact absurd ((reports.1 _).mp failing) not_duplicateClass_of_firstRefused
      · intro repeated
        exact absurd unique repeated
    · intro name failing
      obtain ⟨position, ⟨source, listed, refused⟩, _⟩ := (reports.1 _).mp failing
      cases refused with
      | unknownClass absent =>
          refine ⟨absent, source, ?_, rfl⟩
          rcases List.mem_append.mp (List.mem_of_getElem? listed) with declared | member
          · exact absurd (className_of_mem_declaredMethods declared) absent
          · exact member
    · intro distinct name signature failing
      obtain ⟨position, refused, _⟩ := (reports.1 _).mp failing
      exact not_duplicateMethod_of_distinct distinct refused
  · rw [loading]
    refine ⟨?_, ?_, fun unique => absurd unique repeated, ?_, ?_⟩
    · intro name
      rw [← registering, failed]
    · exact ⟨fun _ => repeated, fun _ => ⟨first, rfl⟩⟩
    · intro name same
      cases same
    · intro _ name signature same
      cases same

def overloadedClasses : List ClassDecl :=
  [⟨"a.A", none, [], .empty, [⟨⟨"run", ["x,y"]⟩, .empty, []⟩, ⟨⟨"run", ["x", "y"]⟩, .empty, []⟩]⟩,
    ⟨"a.B", none, [], .empty, [⟨⟨"run", ["x", "y"]⟩, .empty, []⟩]⟩]

def overloadedMethods : List DetachedMethod :=
  [⟨"a.B", ⟨⟨"run", ["x", "y"]⟩, .publicBit, [[]]⟩⟩, ⟨"a.Z", ⟨⟨"run", []⟩, .empty, []⟩⟩]

theorem load_reports_first_refusal_overloaded :
    (overloadedClasses.map ClassDecl.name).Nodup ∧
    qualifiedSignature "a.A" ⟨"run", ["x,y"]⟩ = qualifiedSignature "a.A" ⟨"run", ["x", "y"]⟩ ∧
    (sources overloadedClasses []).Pairwise DetachedMethod.Distinct ∧
    (∀ name signature, load overloadedClasses [] ≠ .error (.duplicateMethod name signature)) ∧
    FirstRefused (RefusesMethod (overloadedClasses.map ClassDecl.name))
      (sources overloadedClasses overloadedMethods)
      (.duplicateMethod "a.B" ⟨"run", ["x", "y"]⟩) ∧
    load overloadedClasses overloadedMethods.reverse = .error (.unknownEnclosingClass "a.Z") ∧
    "a.Z" ∉ overloadedClasses.map ClassDecl.name ∧
    FirstRefused RefusesClass (overloadedClasses ++ overloadedClasses) (.duplicateClass "a.A") := by
  have unique : (overloadedClasses.map ClassDecl.name).Nodup := by decide +kernel
  have distinct : (sources overloadedClasses []).Pairwise DetachedMethod.Distinct := by
    decide +kernel
  have repeated : load overloadedClasses overloadedMethods =
      .error (.duplicateMethod "a.B" ⟨"run", ["x", "y"]⟩) := by decide +kernel
  have unknown : load overloadedClasses overloadedMethods.reverse =
      .error (.unknownEnclosingClass "a.Z") := by decide +kernel
  have twice : load (overloadedClasses ++ overloadedClasses) [] =
      .error (.duplicateClass "a.A") := by decide +kernel
  obtain ⟨_, _, _, _, clashless⟩ := load_reports_first_refusal overloadedClasses []
  obtain ⟨_, _, methods, _, _⟩ := load_reports_first_refusal overloadedClasses overloadedMethods
  obtain ⟨_, _, _, absent, _⟩ :=
    load_reports_first_refusal overloadedClasses overloadedMethods.reverse
  obtain ⟨doubled, _⟩ := load_reports_first_refusal (overloadedClasses ++ overloadedClasses) []
  exact ⟨unique, by decide +kernel, distinct, clashless distinct,
    ((methods unique).1 _).mp repeated, unknown, (absent _ unknown).1, (doubled _).mp twice⟩

/-- The classes with the first `count` of their methods, counted through all classes. -/
def keepMethods : Nat → List ClassDecl → List ClassDecl
  | _, [] => []
  | count, decl :: rest =>
    { decl with methods := decl.methods.take count } ::
      keepMethods (count - decl.methods.length) rest

theorem headings_keepMethods (count : Nat) (classes : List ClassDecl) :
    (keepMethods count classes).map ClassDecl.heading = classes.map ClassDecl.heading := by
  induction classes generalizing count with
  | nil => rfl
  | cons decl rest ih =>
      rw [keepMethods, List.map_cons, List.map_cons, ih]
      rfl

theorem declaredMethods_keepMethods (count : Nat) (classes : List ClassDecl) :
    declaredMethods (keepMethods count classes) = (declaredMethods classes).take count := by
  induction classes generalizing count with
  | nil => simp [keepMethods, declaredMethods]
  | cons decl rest ih =>
      rw [keepMethods, declaredMethods_cons, declaredMethods_cons, List.take_append, ih,
        List.map_take, List.length_map]

theorem register_headings {others : List ClassDecl}
    (same : others.map ClassDecl.heading = classes.map ClassDecl.heading) (start : Registry) :
    others.foldlM Registry.addClass start = classes.foldlM Registry.addClass start := by
  have heading (decls : List ClassDecl) :
      (decls.map ClassDecl.heading).foldlM Registry.addClass start =
        decls.foldlM Registry.addClass start := by
    rw [List.foldlM_map]
    rfl
  rw [← heading, same, heading]

/-- Methods may be detached from their classes, from any of them on, without any effect. -/
theorem load_keepMethods (classes : List ClassDecl) (detached : List DetachedMethod)
    (count : Nat) :
    (keepMethods count classes).map ClassDecl.heading = classes.map ClassDecl.heading ∧
    declaredMethods (keepMethods count classes) = (declaredMethods classes).take count ∧
    load (keepMethods count classes) ((declaredMethods classes).drop count ++ detached) =
      load classes detached := by
  have headings := headings_keepMethods count classes
  have declared := declaredMethods_keepMethods count classes
  refine ⟨headings, declared, ?_⟩
  have same : sources (keepMethods count classes)
      ((declaredMethods classes).drop count ++ detached) = sources classes detached := by
    rw [sources, sources, declared, ← List.append_assoc, List.take_append_drop]
  rw [load, load, Registry.load_eq_addDetached, Registry.load_eq_addDetached, same,
    register_headings headings]

end Program

end CallResolution
