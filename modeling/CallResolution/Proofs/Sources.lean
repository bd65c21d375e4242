import CallResolution.Proofs.Asking
import CallResolution.Proofs.Loading
import Mathlib.Data.List.Nodup

/-!
What a program is loaded from. Declared and detached methods are added in one sequence, each under
the name of its class. The index of class names that loading keeps never differs from a search
through the classes. The loaded program holds the whole sequence and nothing else, and loading
succeeds unless a class name or a method comes twice or a class is missing.
-/

namespace CallResolution

/-- If every step either succeeds on a good beginning or fails on a bad one, then a run succeeds
exactly on good lists, and keeps what the steps keep. -/
theorem foldlM_decides {ε σ α : Type} {step : σ → α → Except ε σ} (inv : List α → σ → Prop)
    (good : List α → Prop) (beginning : ∀ left right, good (left ++ right) → good left)
    (each : ∀ done item state, inv done state →
      (∃ next, step state item = .ok next ∧ inv (done ++ [item]) next) ∧ good (done ++ [item]) ∨
        (∃ error, step state item = .error error) ∧ ¬ good (done ++ [item]))
    {done : List α} {state : σ} (fine : good done) (start : inv done state) (items : List α) :
    (∃ final, items.foldlM step state = .ok final ∧ inv (done ++ items) final) ∧
        good (done ++ items) ∨
      (∃ error, items.foldlM step state = .error error) ∧ ¬ good (done ++ items) := by
  induction items generalizing done state with
  | nil => exact .inl ⟨⟨state, rfl, by simpa using start⟩, by simpa using fine⟩
  | cons item items ih =>
      have joined : done ++ item :: items = (done ++ [item]) ++ items := by simp
      rw [List.foldlM_cons, joined]
      rcases each done item state start with
        ⟨⟨next, stepped, held⟩, stillFine⟩ | ⟨⟨error, failed⟩, bad⟩
      · rw [stepped]
        exact ih stillFine held
      · exact .inr ⟨⟨error, by rw [failed]; rfl⟩, fun all => bad (beginning _ _ all)⟩

theorem foldlM_congr {ε σ α : Type} {step other : σ → α → Except ε σ} (inv : σ → Prop)
    {items : List α} (keeps : ∀ state item next, inv state → step state item = .ok next → inv next)
    (same : ∀ item ∈ items, ∀ state, inv state → step state item = other state item)
    {start : σ} (holds : inv start) : items.foldlM step start = items.foldlM other start := by
  induction items generalizing start with
  | nil => rfl
  | cons item items ih =>
      rw [List.foldlM_cons, List.foldlM_cons, ← same item (by simp) start holds]
      cases stepped : step start item with
      | error error => rfl
      | ok next =>
          exact ih (fun other member => same other (by simp [member]))
            (keeps start item next holds stepped)

theorem nodup_map_concat {α β : Type} {f : α → β} {items : List α} {item : α} :
    ((items ++ [item]).map f).Nodup ↔ f item ∉ items.map f ∧ (items.map f).Nodup := by
  rw [List.map_append, List.map_singleton, ← List.concat_eq_append, List.nodup_concat]

theorem Handle.upTo_add (arena : Arena) (count more : Nat) :
    upTo arena (count + more) = upTo arena count ++ (List.range' count more).map Handle.mk := by
  rw [upTo, upTo, List.range_add, List.map_append, List.range'_eq_map_range]

theorem Handle.upTo_succ (arena : Arena) (count : Nat) :
    upTo arena (count + 1) = upTo arena count ++ [⟨count⟩] :=
  upTo_add arena count 1

namespace DetachedMethod

def identity (source : DetachedMethod) : String × Signature :=
  (source.className, source.method.signature)

end DetachedMethod

namespace Program

def declaredMethods (classes : List ClassDecl) : List DetachedMethod :=
  classes.flatMap fun decl => decl.methods.map (DetachedMethod.mk decl.name)

theorem declaredMethods_cons (decl : ClassDecl) (classes : List ClassDecl) :
    declaredMethods (decl :: classes) =
      decl.methods.map (DetachedMethod.mk decl.name) ++ declaredMethods classes :=
  List.flatMap_cons

def sources (classes : List ClassDecl) (detached : List DetachedMethod) : List DetachedMethod :=
  declaredMethods classes ++ detached

variable {program grown : Program}

theorem class?_of_classId? {name : String} {id : ClassId}
    (found : program.classId? name = some id) :
    ∃ entry, program.class? id = some entry ∧ entry.name = name := by
  obtain ⟨index, position, rfl⟩ := Option.map_eq_some_iff.mp found
  obtain ⟨bound, named, _⟩ := Array.findIdx?_eq_some_iff_getElem.mp position
  exact ⟨program.classes[index], by simp [class?, bound], by simpa using named⟩

theorem classId?_injective {name other : String} {id : ClassId}
    (found : program.classId? name = some id) (again : program.classId? other = some id) :
    name = other := by
  obtain ⟨entry, listed, named⟩ := class?_of_classId? found
  obtain ⟨second, secondListed, otherNamed⟩ := class?_of_classId? again
  cases listed.symm.trans secondListed
  exact named.symm.trans otherNamed

theorem classId?_eq_some (unique : program.classNames.Nodup) {name : String} {id : ClassId} :
    program.classId? name = some id ↔
      ∃ entry, program.class? id = some entry ∧ entry.name = name := by
  refine ⟨class?_of_classId?, ?_⟩
  rintro ⟨entry, listed, rfl⟩
  obtain ⟨bound, rfl⟩ := Array.getElem?_eq_some_iff.mp listed
  have inside : id.index < program.classNames.length := by simpa [classNames] using bound
  have here : program.classNames[id.index] = program.classes[id.index].name := by
    simp [classNames]
  have position : program.classNames.idxOf? program.classes[id.index].name = some id.index := by
    rw [← here, List.idxOf?_eq_some_iff]
    refine ⟨inside, rfl, fun earlier before same => ?_⟩
    exact Nat.ne_of_lt before (unique.getElem_inj_iff.mp same)
  rw [classId?_eq, position]
  rfl

theorem classNames_eq_of_headings {entries : List ClassDecl}
    (headings : program.classes.toList.map ClassEntry.heading = entries.map ClassDecl.heading) :
    program.classNames = entries.map ClassDecl.name := by
  have names := congrArg (List.map ClassDecl.name) headings
  rw [List.map_map, List.map_map] at names
  exact names

theorem method?_place {placement : Placement} {id : MethodId} {entry : MethodEntry}
    (found : program.method? id = some entry) :
    (program.place placement).method? id = some entry := by
  have bound : id.index < program.methods.size := (Array.getElem?_eq_some_iff.mp found).1
  have old : id.index ≠ program.methods.size := Nat.ne_of_lt bound
  simpa [method?, place, Array.getElem?_push, old] using found

theorem block?_place {placement : Placement} {id : BlockId} {entry : BlockEntry}
    (found : program.block? id = some entry) :
    (program.place placement).block? id = some entry := by
  have bound : id.index < program.blocks.size := (Array.getElem?_eq_some_iff.mp found).1
  simpa [block?, place, ← Array.getElem?_toList, List.getElem?_append, bound] using found

theorem newBlocks_place (program : Program) (placement : Placement) :
    ((List.range' program.blocks.size placement.method.blocks.length).map Handle.mk :
        List BlockId).map (program.place placement).block? =
      placement.method.blocks.map fun statements => some ⟨⟨program.methods.size⟩, statements⟩ := by
  apply List.ext_getElem
  · simp
  · intro position _ bound
    have inside : position < placement.method.blocks.length := by simpa using bound
    simp [block?, place, ← Array.getElem?_toList, inside]

def Stores (program : Program) (method : MethodId) (source : DetachedMethod) : Prop :=
  ∃ entry, program.method? method = some entry ∧
    program.classId? source.className = some entry.owner ∧
    entry.className = source.className ∧ entry.signature = source.method.signature ∧
    entry.modifiers = source.method.modifiers ∧
    entry.blocks.map program.block? =
      source.method.blocks.map fun statements => some ⟨method, statements⟩

def ownedBy (program : Program) (id : ClassId) (method : MethodId) : Bool :=
  (program.method? method).any fun entry => entry.owner == id

theorem stores_place {method : MethodId} {source : DetachedMethod} (placement : Placement)
    (stored : program.Stores method source) : (program.place placement).Stores method source := by
  obtain ⟨entry, found, owner, className, signature, modifiers, bodies⟩ := stored
  refine ⟨entry, method?_place found, ?_, className, signature, modifiers, ?_⟩
  · rw [classId?_place, owner]
  · rw [← bodies]
    refine List.map_congr_left fun block member => ?_
    have listed : program.block? block ∈ entry.blocks.map program.block? :=
      List.mem_map_of_mem member
    rw [bodies] at listed
    obtain ⟨statements, _, same⟩ := List.mem_map.mp listed
    rw [← same, block?_place same.symm]

/-- The program holds the classes and the methods, all of them and nothing besides, every class
with its methods and every method with its blocks in the order they were added. -/
structure Holds (program : Program) (classes : List ClassDecl) (sources : List DetachedMethod) :
    Prop where
  headings : program.classes.toList.map ClassEntry.heading = classes.map ClassDecl.heading
  methods : List.Forall₂ program.Stores program.methodIds sources
  listed : ∀ id, program.methodsOf id = program.methodIds.filter (program.ownedBy id)
  grouped : program.blockIds = program.methods.toList.flatMap MethodEntry.blocks
  names : (classes.map ClassDecl.name).Nodup
  identities : (sources.map DetachedMethod.identity).Nodup

namespace Holds

variable {classes : List ClassDecl} {sources : List DetachedMethod}

theorem classNames (held : program.Holds classes sources) :
    program.classNames = classes.map ClassDecl.name :=
  classNames_eq_of_headings held.headings

theorem unique (held : program.Holds classes sources) : program.classNames.Nodup :=
  held.classNames ▸ held.names

theorem any_hasSignature (held : program.Holds classes sources) {name : String} {owner : ClassId}
    (found : program.classId? name = some owner) (signature : Signature) :
    (program.methodsOf owner).any (program.hasSignature signature) = true ↔
      (name, signature) ∈ sources.map DetachedMethod.identity := by
  rw [held.listed, List.any_eq_true, List.mem_map]
  constructor
  · rintro ⟨method, member, passes⟩
    obtain ⟨listed, owned⟩ := List.mem_filter.mp member
    obtain ⟨source, sourced, entry, entryFound, ownerFound, _, same, _⟩ :=
      mem_of_forall₂ held.methods.flip listed
    rw [ownedBy, entryFound] at owned
    rw [hasSignature, entryFound] at passes
    have here : entry.owner = owner := by simpa using owned
    refine ⟨source, sourced, Prod.ext (classId?_injective (here ▸ ownerFound) found) ?_⟩
    exact same.symm.trans (by simpa using passes)
  · rintro ⟨source, sourced, identified⟩
    obtain ⟨rfl, rfl⟩ := Prod.mk.inj identified
    obtain ⟨method, listed, entry, entryFound, ownerFound, _, same, _⟩ :=
      mem_of_forall₂ held.methods sourced
    cases ownerFound.symm.trans found
    refine ⟨method, List.mem_filter.mpr ⟨listed, ?_⟩, ?_⟩
    · simp [ownedBy, entryFound]
    · simp [hasSignature, entryFound, same]

theorem register {decl : ClassDecl} (held : program.Holds classes [])
    (fresh : decl.name ∉ classes.map ClassDecl.name) :
    (program.register decl).Holds (classes ++ [decl]) [] := by
  have none : program.methodIds = [] := List.forall₂_nil_right_iff.mp held.methods
  have methodIds : (program.register decl).methodIds = [] := none
  refine ⟨?_, methodIds ▸ .nil, fun id => ?_, held.grouped, ?_, List.nodup_nil⟩
  · simp [Program.register, held.headings, ClassEntry.heading, ClassDecl.heading]
  · rw [methodsOf_register, held.listed, none, methodIds]
    rfl
  · exact nodup_map_concat.mpr ⟨fresh, held.names⟩

theorem place (held : program.Holds classes sources) {source : DetachedMethod} {owner : ClassId}
    (found : program.classId? source.className = some owner)
    (fresh : source.identity ∉ sources.map DetachedMethod.identity) :
    (program.place ⟨owner, source.className, source.method⟩).Holds classes
      (sources ++ [source]) := by
  have bound : owner.index < program.classes.size := classId?_bound found
  have methodIds : (program.place ⟨owner, source.className, source.method⟩).methodIds =
      program.methodIds ++ [⟨program.methods.size⟩] := by
    simp only [Program.methodIds, Program.place, Array.size_push, Handle.upTo_succ]
  refine ⟨?_, ?_, fun id => ?_, ?_, held.names, ?_⟩
  · rw [headings_place, held.headings]
  · rw [methodIds]
    refine List.rel_append (held.methods.imp fun _ _ => stores_place _) (.cons ?_ .nil)
    refine ⟨_, Array.getElem?_push_size, ?_, rfl, rfl, rfl, newBlocks_place _ _⟩
    rw [classId?_place, found]
  · rw [methodsOf_place program bound, held.listed, methodIds, List.filter_append]
    congr 1
    · refine List.filter_congr fun method listed => ?_
      have inside : method.index < program.methods.size := Handle.mem_upTo.mp listed
      have old : method.index ≠ program.methods.size := Nat.ne_of_lt inside
      simp [ownedBy, method?, Program.place, Array.getElem?_push, old]
    · by_cases here : id = owner
      · simp [here, ownedBy, method?, Program.place]
      · simp [here, Ne.symm here, ownedBy, method?, Program.place]
  · have blockIds : (program.place ⟨owner, source.className, source.method⟩).blockIds =
        program.blockIds ++ (List.range' program.blocks.size
          source.method.blocks.length).map Handle.mk := by
      simp only [Program.blockIds, ← Handle.upTo_add]
      congr 1
      rw [← Array.length_toList]
      simp [Program.place]
    rw [blockIds, held.grouped]
    simp [Program.place]
  · exact nodup_map_concat.mpr ⟨fresh, held.identities⟩

end Holds

structure Admissible (classes : List ClassDecl) (sources : List DetachedMethod) : Prop where
  identities : (sources.map DetachedMethod.identity).Nodup
  enclosed : ∀ source ∈ sources, source.className ∈ classes.map ClassDecl.name

structure Loadable (classes : List ClassDecl) (detached : List DetachedMethod) : Prop where
  names : (classes.map ClassDecl.name).Nodup
  admissible : Admissible classes (sources classes detached)

theorem Holds.admissible {classes : List ClassDecl} {sources : List DetachedMethod}
    (held : program.Holds classes sources) : Admissible classes sources := by
  refine ⟨held.identities, fun source member => ?_⟩
  obtain ⟨_, _, _, _, owner, _⟩ := mem_of_forall₂ held.methods member
  rw [← held.classNames, ← classId?_isSome, owner]
  rfl

theorem empty_holds : empty.Holds [] [] := by
  refine ⟨rfl, .nil, fun id => ?_, rfl, List.nodup_nil, List.nodup_nil⟩
  simp [methodsOf, class?, methodIds, Handle.upTo, empty]

theorem placements_named {classes : List ClassDecl} (held : program.Holds classes [])
    {placement : Placement} (member : placement ∈ placements classes) :
    program.classId? placement.className = some placement.owner := by
  simp only [placements, List.mem_flatMap, List.mem_map] at member
  obtain ⟨⟨decl, position⟩, numbered, method, _, rfl⟩ := member
  rw [List.mem_zipIdx_iff_getElem?] at numbered
  have named : program.classNames[position]? = some decl.name := by
    rw [held.classNames, List.getElem?_map, numbered]
    rfl
  rw [classNames, List.getElem?_map, Array.getElem?_toList] at named
  obtain ⟨entry, listed, same⟩ := Option.map_eq_some_iff.mp named
  exact (classId?_eq_some held.unique).mpr ⟨entry, listed, same⟩

theorem placements_sources (classes : List ClassDecl) (detached : List DetachedMethod) :
    ((placements classes).map fun placement =>
      (⟨placement.className, placement.method⟩ : DetachedMethod)) ++ detached =
      sources classes detached := by
  rw [sources, declaredMethods, placements, List.map_flatMap]
  simp only [List.map_map, Function.comp_def]
  congr 1
  conv_rhs => rw [← List.zipIdx_map_fst 0 classes, List.flatMap_map]

end Program

namespace Registry

open Program

variable {registry : Registry} {classes : List ClassDecl} {done : List DetachedMethod}

/-- The index answers as a search through the classes does, and the program holds what has been
added so far. -/
structure Holds (registry : Registry) (classes : List ClassDecl) (sources : List DetachedMethod) :
    Prop where
  indexed : ∀ name, registry.classId? name = registry.program.classId? name
  program : registry.program.Holds classes sources

theorem empty_holds : empty.Holds [] [] := by
  refine ⟨fun name => ?_, Program.empty_holds⟩
  simp [classId?, Program.classId?, empty, Program.empty]

namespace Holds

theorem classId?_isSome (held : registry.Holds classes done) {name : String} :
    (registry.classId? name).isSome = true ↔ name ∈ classes.map ClassDecl.name := by
  rw [held.indexed, Program.classId?_isSome, held.program.classNames]

theorem register (held : registry.Holds classes []) {decl : ClassDecl}
    (fresh : decl.name ∉ classes.map ClassDecl.name) :
    Holds ⟨registry.program.register decl,
      (decl.name, ⟨registry.program.classes.size⟩) :: registry.classIndex⟩ (classes ++ [decl]) [] := by
  refine ⟨fun name => ?_, held.program.register fresh⟩
  have absent : registry.program.classId? decl.name = none := by
    rw [← Option.not_isSome_iff_eq_none, ← held.indexed, held.classId?_isSome]
    exact fresh
  rw [classId?_register _ absent, classId?, List.lookup_cons]
  by_cases same : name = decl.name
  · simp [same]
  · have other : (name == decl.name) = false := by simpa using same
    simp only [other, same, if_false]
    exact held.indexed name

theorem place (held : registry.Holds classes done) {source : DetachedMethod} {owner : ClassId}
    (found : registry.program.classId? source.className = some owner)
    (fresh : source.identity ∉ done.map DetachedMethod.identity) :
    Holds { registry with
      program := registry.program.place ⟨owner, source.className, source.method⟩ } classes
      (done ++ [source]) := by
  refine ⟨fun name => ?_, held.program.place found fresh⟩
  rw [classId?_place]
  exact held.indexed name

end Holds

theorem addMethod_eq (registry : Registry) (placement : Placement) :
    registry.addMethod placement =
      if (registry.program.methodsOf placement.owner).any
          (registry.program.hasSignature placement.method.signature) = true then
        .error (.duplicateMethod placement.className placement.method.signature)
      else .ok { registry with program := registry.program.place placement } := by
  rw [addMethod, Program.addMethod]
  split
  · rfl
  · rfl

theorem addClass_cases (held : registry.Holds classes []) (decl : ClassDecl) :
    decl.name ∈ classes.map ClassDecl.name ∧
        registry.addClass decl = .error (.duplicateClass decl.name) ∨
      decl.name ∉ classes.map ClassDecl.name ∧
        ∃ next, registry.addClass decl = .ok next ∧ next.Holds (classes ++ [decl]) [] := by
  unfold addClass
  split
  · rename_i known
    exact .inl ⟨held.classId?_isSome.mp known, rfl⟩
  · rename_i unknown
    rw [held.classId?_isSome] at unknown
    exact .inr ⟨unknown, _, rfl, held.register unknown⟩

theorem addDetached_cases (held : registry.Holds classes done) (source : DetachedMethod) :
    source.className ∉ classes.map ClassDecl.name ∧
        registry.addDetached source = .error (.unknownEnclosingClass source.className) ∨
      source.className ∈ classes.map ClassDecl.name ∧
        (source.identity ∈ done.map DetachedMethod.identity ∧ registry.addDetached source =
            .error (.duplicateMethod source.className source.method.signature) ∨
          source.identity ∉ done.map DetachedMethod.identity ∧
            ∃ next, registry.addDetached source = .ok next ∧
              next.Holds classes (done ++ [source])) := by
  rw [← held.classId?_isSome, addDetached]
  cases found : registry.classId? source.className with
  | none => exact .inl ⟨Bool.false_ne_true, rfl⟩
  | some owner =>
      rw [held.indexed] at found
      refine .inr ⟨rfl, ?_⟩
      dsimp only
      rw [addMethod_eq]
      split
      · rename_i duplicate
        exact .inl ⟨(held.program.any_hasSignature found _).mp duplicate, rfl⟩
      · rename_i fresh
        rw [held.program.any_hasSignature found] at fresh
        exact .inr ⟨fresh, _, rfl, held.place found fresh⟩

theorem addClass_decides (held : registry.Holds classes []) (decl : ClassDecl) :
    (∃ next, registry.addClass decl = .ok next ∧ next.Holds (classes ++ [decl]) []) ∧
        ((classes ++ [decl]).map ClassDecl.name).Nodup ∨
      (∃ error, registry.addClass decl = .error error) ∧
        ¬ ((classes ++ [decl]).map ClassDecl.name).Nodup := by
  rcases addClass_cases held decl with ⟨known, failed⟩ | ⟨_, next, added, grows⟩
  · exact .inr ⟨⟨_, failed⟩, fun unique => (nodup_map_concat.mp unique).1 known⟩
  · exact .inl ⟨⟨next, added, grows⟩, grows.program.names⟩

theorem addDetached_decides (held : registry.Holds classes done) (source : DetachedMethod) :
    (∃ next, registry.addDetached source = .ok next ∧ next.Holds classes (done ++ [source])) ∧
        Admissible classes (done ++ [source]) ∨
      (∃ error, registry.addDetached source = .error error) ∧
        ¬ Admissible classes (done ++ [source]) := by
  rcases addDetached_cases held source with
    ⟨unknown, failed⟩ | ⟨_, ⟨duplicate, failed⟩ | ⟨_, next, added, grows⟩⟩
  · exact .inr ⟨⟨_, failed⟩, fun admissible => unknown (admissible.enclosed source (by simp))⟩
  · refine .inr ⟨⟨_, failed⟩, fun admissible => ?_⟩
    exact (nodup_map_concat.mp admissible.identities).1 duplicate
  · exact .inl ⟨⟨next, added, grows⟩, grows.program.admissible⟩

theorem addMethod_eq_addDetached {placement : Placement}
    (found : registry.classId? placement.className = some placement.owner) :
    registry.addMethod placement =
      registry.addDetached ⟨placement.className, placement.method⟩ := by
  simp only [addDetached, found]

theorem classIndex_addMethod {placement : Placement} {next : Registry}
    (added : registry.addMethod placement = .ok next) :
    next.classIndex = registry.classIndex := by
  rw [addMethod_eq] at added
  split at added
  · cases added
  · cases added
    rfl

theorem register_decides (classes : List ClassDecl) :
    (∃ registered, classes.foldlM addClass empty = .ok registered ∧ registered.Holds classes []) ∧
        (classes.map ClassDecl.name).Nodup ∨
      (∃ error, classes.foldlM addClass empty = .error error) ∧
        ¬ (classes.map ClassDecl.name).Nodup := by
  have nothing : (([] : List ClassDecl).map ClassDecl.name).Nodup := List.nodup_nil
  refine foldlM_decides (fun done (registry : Registry) => registry.Holds done [])
    (fun done => (done.map ClassDecl.name).Nodup) ?_ ?_ nothing empty_holds classes
  · intro left right unique
    rw [List.map_append] at unique
    exact (List.nodup_append.mp unique).1
  · exact fun _ decl _ held => addClass_decides held decl

/-- Loading registers the classes and then adds one method after the other. -/
theorem load_eq_addDetached (classes : List ClassDecl) (detached : List DetachedMethod) :
    load classes detached = (classes.foldlM addClass empty >>= fun registered =>
      (sources classes detached).foldlM addDetached registered) := by
  rcases register_decides classes with ⟨⟨registered, registering, held⟩, _⟩ | ⟨⟨error, failing⟩, _⟩
  · have declared : (placements classes).foldlM addMethod registered =
        (placements classes).foldlM (fun registry placement =>
          registry.addDetached ⟨placement.className, placement.method⟩) registered := by
      refine foldlM_congr (fun registry => registry.classIndex = registered.classIndex) ?_ ?_ rfl
      · intro registry placement next same added
        rw [classIndex_addMethod added, same]
      · intro placement member registry same
        have named := placements_named held.program member
        rw [← held.indexed, classId?, ← same] at named
        exact addMethod_eq_addDetached named
    rw [load, registering, ← placements_sources]
    simp only [bind, Except.bind, List.foldlM_append, List.foldlM_map, declared]
  · rw [load, failing]
    rfl

theorem addAll_decides (held : registry.Holds classes []) (sources : List DetachedMethod) :
    (∃ final, sources.foldlM addDetached registry = .ok final ∧ final.Holds classes sources) ∧
        Admissible classes sources ∨
      (∃ error, sources.foldlM addDetached registry = .error error) ∧
        ¬ Admissible classes sources := by
  refine foldlM_decides (fun done (registry : Registry) => registry.Holds classes done)
    (Admissible classes) ?_ ?_ held.program.admissible held sources
  · rintro left right ⟨identities, enclosed⟩
    rw [List.map_append] at identities
    refine ⟨(List.nodup_append.mp identities).1, fun source member => ?_⟩
    exact enclosed source (List.mem_append_left _ member)
  · exact fun _ source _ held => addDetached_decides held source

theorem load_decides (classes : List ClassDecl) (detached : List DetachedMethod) :
    (∃ registry, load classes detached = .ok registry ∧
        registry.Holds classes (sources classes detached)) ∧ Loadable classes detached ∨
      (∃ error, load classes detached = .error error) ∧ ¬ Loadable classes detached := by
  rw [load_eq_addDetached]
  rcases register_decides classes with
    ⟨⟨registered, registering, held⟩, names⟩ | ⟨⟨error, failing⟩, repeated⟩
  · rw [registering]
    rcases addAll_decides held (sources classes detached) with
      ⟨loaded, admissible⟩ | ⟨failed, inadmissible⟩
    · exact .inl ⟨loaded, names, admissible⟩
    · exact .inr ⟨failed, fun loadable => inadmissible loadable.admissible⟩
  · rw [failing]
    exact .inr ⟨⟨error, rfl⟩, fun loadable => repeated loadable.names⟩

end Registry

namespace Program

variable {classes : List ClassDecl} {detached : List DetachedMethod}

theorem load_eq_error_iff {error : LoadError} :
    load classes detached = .error error ↔ Registry.load classes detached = .error error := by
  rw [load]
  cases Registry.load classes detached with
  | ok registry => simp [Except.map]
  | error other => simp [Except.map]

theorem load_eq_ok_iff :
    (∃ program, load classes detached = .ok program) ↔
      ∃ registry, Registry.load classes detached = .ok registry := by
  rw [load]
  cases Registry.load classes detached with
  | ok registry => simp [Except.map]
  | error other => simp [Except.map]

theorem load_succeeds_iff :
    (∃ program, load classes detached = .ok program) ↔ Loadable classes detached := by
  rw [load_eq_ok_iff]
  rcases Registry.load_decides classes detached with
    ⟨⟨registry, loaded, _⟩, loadable⟩ | ⟨⟨error, failed⟩, unloadable⟩
  · exact ⟨fun _ => loadable, fun _ => ⟨registry, loaded⟩⟩
  · refine ⟨?_, fun loadable => absurd loadable unloadable⟩
    rintro ⟨_, loaded⟩
    cases failed.symm.trans loaded

/-- The registry of a loaded program looks names up as the program does. -/
theorem load_registry (loaded : load classes detached = .ok program) :
    ∃ registry, Registry.load classes detached = .ok registry ∧ registry.program = program ∧
      registry.Holds classes (sources classes detached) := by
  rw [load] at loaded
  rcases Registry.load_decides classes detached with ⟨⟨registry, again, held⟩, _⟩ | ⟨⟨_, failed⟩, _⟩
  · rw [again] at loaded
    cases loaded
    exact ⟨registry, again, rfl, held⟩
  · rw [failed] at loaded
    cases loaded

theorem load_holds (loaded : load classes detached = .ok program) :
    program.Holds classes (sources classes detached) := by
  obtain ⟨_, _, rfl, held⟩ := load_registry loaded
  exact held.program

end Program

end CallResolution
