import CallResolution.Proofs.CallSites
import CallResolution.Proofs.Mirrors

/-!
Declarations in another order. The same programs can be loaded, and what is loaded differs in
handles only. A call site keeps its place: its method, the position of its block in the method,
and its statement.
-/

namespace CallResolution

section Lists

variable {α β γ : Type}

theorem forall₂_of_map_eq {view : α → γ} {otherView : β → γ} {items : List α} {others : List β}
    (same : items.map view = others.map otherView) :
    List.Forall₂ (fun item other => item ∈ items ∧ other ∈ others ∧ view item = otherView other)
      items others := by
  have length : items.length = others.length := by simpa using congrArg List.length same
  refine List.forall₂_iff_get.mpr ⟨length, fun position bound otherBound => ?_⟩
  refine ⟨List.get_mem _ _, List.get_mem _ _, ?_⟩
  have here : (items.map view)[position]? = (others.map otherView)[position]? := by rw [same]
  simpa [bound, otherBound] using here

theorem map_filter_of_forall₂ {relation : α → β → Prop} {view : α → γ} {otherView : β → γ}
    {test : α → Bool} {otherTest : β → Bool} {items : List α} {others : List β}
    (related : List.Forall₂ relation items others)
    (tests : ∀ item other, relation item other → test item = otherTest other)
    (views : ∀ item other, relation item other → view item = otherView other) :
    (items.filter test).map view = (others.filter otherTest).map otherView := by
  induction related with
  | nil => rfl
  | cons head _ ih =>
      rw [List.filter_cons, List.filter_cons, tests _ _ head]
      split
      · rw [List.map_cons, List.map_cons, views _ _ head, ih]
      · exact ih

theorem find?_key_eq [BEq β] [LawfulBEq β] {key : α → β} {items : List α}
    (unique : (items.map key).Nodup) {item : α} (member : item ∈ items) :
    items.find? (fun other => key other == key item) = some item := by
  cases chosen : items.find? fun other => key other == key item with
  | none => simpa using List.find?_eq_none.mp chosen item member
  | some first =>
      have same : key first = key item := by simpa using List.find?_some chosen
      rw [List.inj_on_of_nodup_map unique (List.mem_of_find?_eq_some chosen) member same]

theorem filter_key_eq_of_perm [BEq β] [LawfulBEq β] {key : α → β} {left right : List α}
    (shuffled : left.Perm right) (unique : (left.map key).Nodup) (wanted : β) :
    left.filter (fun item => key item == wanted) =
      right.filter fun item => key item == wanted := by
  have perm := shuffled.filter fun item => key item == wanted
  have keys : ((left.filter fun item => key item == wanted).map key).Nodup :=
    unique.sublist (List.filter_sublist.map key)
  have wantedKey : ∀ item ∈ left.filter (fun item => key item == wanted), key item = wanted :=
    fun item member => by simpa using (List.mem_filter.mp member).2
  generalize left.filter (fun item => key item == wanted) = found at perm keys wantedKey
  match found with
  | [] => exact perm.nil_eq
  | [item] => exact (List.perm_singleton.mp perm.symm).symm
  | first :: second :: rest =>
      have same : key first = key second :=
        (wantedKey first (by simp)).trans (wantedKey second (by simp)).symm
      simp [same] at keys

/-- A test that tells the parts of one item from those of all others selects these. -/
theorem filter_flatMap_of_mem [DecidableEq α] {parts : α → List β} {test : β → Bool} {item : α}
    (tests : ∀ other, ∀ part ∈ parts other, test part = decide (other = item)) {items : List α}
    (unique : items.Nodup) (member : item ∈ items) :
    (items.flatMap parts).filter test = parts item := by
  have others : ∀ other, other ≠ item → (parts other).filter test = [] := by
    intro other different
    rw [List.filter_eq_nil_iff]
    intro part listed
    simp [tests other part listed, different]
  have own : (parts item).filter test = parts item := by
    rw [List.filter_eq_self]
    intro part listed
    simp [tests item part listed]
  rw [List.filter_flatMap]
  induction items with
  | nil => cases member
  | cons first rest ih =>
      obtain ⟨apart, restUnique⟩ := List.nodup_cons.mp unique
      rw [List.flatMap_cons]
      by_cases here : first = item
      · have none : rest.flatMap (fun other => (parts other).filter test) = [] := by
          rw [List.flatMap_eq_nil_iff]
          intro other listed
          exact others other fun same => apart (here ▸ same ▸ listed)
        rw [here, own, none, List.append_nil]
      · have later : item ∈ rest := (List.mem_cons.mp member).resolve_left (Ne.symm here)
        rw [others first here, List.nil_append, ih restUnique later]

end Lists

namespace Program

variable {program other : Program} {classes others : List ClassDecl}
  {sources : List DetachedMethod}

theorem Holds.sources_of_class (held : program.Holds classes sources) {name : String}
    {id : ClassId} (found : program.classId? name = some id) :
    (program.methodsOf id).map program.source? =
      (sources.filter fun source => source.className == name).map some := by
  rw [held.listed]
  refine map_filter_of_forall₂ held.methods (fun method source stored => ?_) fun _ _ stored =>
    stored.sourceOf
  obtain ⟨entry, listed, owner, _⟩ := stored
  rw [ownedBy, listed, Option.any_some, Bool.eq_iff_iff, beq_iff_eq, beq_iff_eq]
  constructor
  · intro here
    exact classId?_injective (here ▸ owner) found
  · rintro rfl
    exact Option.some.inj (owner.symm.trans found)

theorem Holds.outline?_eq (held : program.Holds classes sources) (name : String) :
    program.outline? name = (classes.filter fun decl => decl.name == name).head?.map fun decl =>
      (decl.heading, (sources.filter fun source => source.className == name).map some) := by
  rw [List.head?_filter]
  cases found : program.classId? name with
  | none =>
      have absent : name ∉ classes.map ClassDecl.name := by
        rw [← held.classNames, ← classId?_isSome, found]
        exact Bool.false_ne_true
      have unlisted : classes.find? (fun decl => decl.name == name) = none := by
        rw [List.find?_eq_none]
        intro decl member same
        exact absent (List.mem_map.mpr ⟨decl, member, by simpa using same⟩)
      simp [outline?, found, unlisted]
  | some id =>
      obtain ⟨entry, listed, rfl⟩ := class?_of_classId? found
      have heading : entry.heading ∈ classes.map ClassDecl.heading := by
        rw [← held.headings]
        exact List.mem_map_of_mem (by simpa using Array.mem_of_getElem? listed)
      obtain ⟨decl, member, same⟩ := List.mem_map.mp heading
      have named : decl.name = entry.name := congrArg ClassDecl.name same
      have chosen := find?_key_eq held.names member
      rw [named] at chosen
      have methods := held.sources_of_class found
      rw [methodsOf, listed] at methods
      rw [outline?_of_classId? found listed, chosen, Option.map_some, same]
      exact congrArg (fun methods => some (entry.heading, methods)) methods

theorem sources_perm (shuffled : classes.Perm others) (detached : List DetachedMethod) :
    (Program.sources classes detached).Perm (Program.sources others detached) :=
  (shuffled.flatMap_right _).append_right detached

theorem sources_filter (classes : List ClassDecl) (detached : List DetachedMethod)
    (name : String) :
    (Program.sources classes detached).filter (fun source => source.className == name) =
      Program.sources (classes.filter fun decl => decl.name == name)
        (detached.filter fun source => source.className == name) := by
  rw [Program.sources, Program.sources, List.filter_append]
  congr 1
  induction classes with
  | nil => rfl
  | cons decl classes ih =>
      rw [declaredMethods_cons, List.filter_append, ih, List.filter_cons]
      by_cases here : decl.name = name
      · simp [here, declaredMethods_cons, List.filter_map, Function.comp_def]
      · simp [here, List.filter_map, Function.comp_def]

theorem loadable_perm (shuffled : classes.Perm others) {detached : List DetachedMethod}
    (loadable : Loadable classes detached) : Loadable others detached := by
  have names := shuffled.map ClassDecl.name
  have moved := sources_perm shuffled detached
  refine ⟨names.nodup_iff.mp loadable.names, ?_, fun source member => ?_⟩
  · exact (moved.map DetachedMethod.identity).nodup_iff.mp loadable.admissible.identities
  · exact names.mem_iff.mp (loadable.admissible.enclosed source (moved.mem_iff.mpr member))

theorem load_mirrors (shuffled : classes.Perm others) {detached : List DetachedMethod}
    (loaded : load classes detached = .ok program)
    (otherLoaded : load others detached = .ok other) : program.Mirrors other := by
  have held := load_holds loaded
  have otherHeld := load_holds otherLoaded
  refine ⟨held.integral, otherHeld.integral, fun name => ?_⟩
  rw [held.outline?_eq, otherHeld.outline?_eq, sources_filter, sources_filter,
    filter_key_eq_of_perm shuffled held.names name]

end Program

structure SitePlace where
  caller : Option (String × Signature)
  block : Nat
  statement : Nat
  invocation : Invocation
  deriving DecidableEq, Repr

def DetachedMethod.places (source : DetachedMethod) : List SitePlace :=
  source.method.blocks.zipIdx.flatMap fun body =>
    (Statement.invocations body.1).map fun call => ⟨some source.identity, body.2, call.1, call.2⟩

namespace Program

def identityOf? (program : Program) (id : MethodId) : Option (String × Signature) :=
  (program.method? id).map fun entry => (entry.className, entry.signature)

def placeOf (program : Program) (site : CallSite) : SitePlace :=
  ⟨program.identityOf? site.caller, (program.blocksOf site.caller).idxOf site.block,
    site.statement, site.invocation⟩

def entriesOf (program : Program) (id : MethodId) : List (BlockId × BlockEntry) :=
  (program.blocksOf id).filterMap fun block => (program.block? block).map fun entry => (block, entry)

variable {program : Program} {classes : List ClassDecl} {sources : List DetachedMethod}

theorem Stores.identityOf? {method : MethodId} {source : DetachedMethod}
    (stored : program.Stores method source) :
    program.identityOf? method = some source.identity := by
  obtain ⟨entry, found, _, className, signature, _⟩ := stored
  simp only [Program.identityOf?, found, Option.map_some, className, signature,
    DetachedMethod.identity]

theorem Stores.places_from {method : MethodId} {source : DetachedMethod}
    (stored : program.Stores method source) {before rest : List BlockId}
    {bodies : List (List Statement)}
    (related : List.Forall₂ (fun block statements =>
      program.block? block = some ⟨method, statements⟩) rest bodies)
    (blocks : program.blocksOf method = before ++ rest) (unique : (before ++ rest).Nodup) :
    (sitesIn (rest.filterMap fun block =>
      (program.block? block).map fun entry => (block, entry))).map program.placeOf =
    (bodies.zipIdx before.length).flatMap fun body =>
      (Statement.invocations body.1).map fun call =>
        ⟨some source.identity, body.2, call.1, call.2⟩ := by
  induction related generalizing before with
  | nil => rfl
  | @cons block statements rest bodies found _ ih =>
      have apart : block ∉ before := fun member =>
        (List.nodup_append.mp unique).2.2 block member block (by simp) rfl
      have position : (program.blocksOf method).idxOf block = before.length := by
        rw [blocks, List.idxOf_append_of_notMem apart, List.idxOf_cons_self, Nat.add_zero]
      have onward : program.blocksOf method = (before ++ [block]) ++ rest := by simpa using blocks
      have later := ih onward (by simpa using unique)
      rw [List.length_append, List.length_singleton] at later
      simp only [List.filterMap_cons, found, Option.map_some, sitesIn, List.flatMap_cons,
        List.map_append, List.zipIdx_cons]
      congr 1
      simp only [sitesOf, List.map_map, Function.comp_def, placeOf, position, stored.identityOf?]

theorem Integral.caller_found (integral : program.Integral) {site : CallSite}
    (member : site ∈ program.callSites) : ∃ entry, program.method? site.caller = some entry := by
  obtain ⟨block, listed, caller, _⟩ := mem_sitesIn.mp member
  obtain ⟨entry, found, _⟩ := integral.callers _ _ (mem_blockEntries.mp listed)
  exact ⟨entry, caller ▸ found⟩

namespace Holds

variable (held : program.Holds classes sources)

include held

theorem nodup_blocksOf (method : MethodId) : (program.blocksOf method).Nodup := by
  cases found : program.method? method with
  | none => simp [blocksOf, found]
  | some entry =>
      obtain ⟨first, consecutive⟩ := held.consecutive found
      rw [blocksOf, found, Option.map_some, Option.getD_some, consecutive]
      exact (List.nodup_range' 1 Nat.one_pos).map fun _ _ same => congrArg Handle.index same

theorem places {method : MethodId} {source : DetachedMethod}
    (stored : program.Stores method source) :
    (sitesIn (program.entriesOf method)).map program.placeOf = source.places := by
  have bodies := stored.blocksOf
  rw [← List.forall₂_eq_eq_eq, List.forall₂_map_left_iff, List.forall₂_map_right_iff] at bodies
  exact stored.places_from bodies (List.nil_append _).symm (held.nodup_blocksOf method)

theorem callSites_eq :
    program.callSites = program.methodIds.flatMap fun method => sitesIn (program.entriesOf method) := by
  rw [callSites, blockEntries, held.blockIds_eq, List.filterMap_flatMap, sitesIn, List.flatMap_assoc]
  rfl

theorem caller_of_mem_entriesOf {method : MethodId} {site : CallSite}
    (member : site ∈ sitesIn (program.entriesOf method)) : site.caller = method := by
  obtain ⟨block, listed, caller, _⟩ := mem_sitesIn.mp member
  obtain ⟨id, inMethod, made⟩ := List.mem_filterMap.mp listed
  obtain ⟨_, found, same⟩ := Option.map_eq_some_iff.mp made
  obtain ⟨rfl, rfl⟩ := Prod.mk.inj same
  cases entryFound : program.method? method with
  | none => simp [blocksOf, entryFound] at inMethod
  | some entry =>
      obtain ⟨_, _, stored⟩ := held.stored entryFound
      obtain ⟨again, foundAgain, here⟩ := stored.method_eq inMethod
      cases found.symm.trans foundAgain
      exact caller.symm.trans here

theorem places_of_caller {method : MethodId} {entry : MethodEntry}
    (found : program.method? method = some entry) :
    (program.callSites.filter fun site => site.caller = method).map program.placeOf =
      (program.sourceOf entry).places := by
  have listed : method ∈ program.methodIds :=
    Handle.mem_upTo.mpr (Array.getElem?_eq_some_iff.mp found).1
  have own : (program.callSites.filter fun site => site.caller = method) =
      sitesIn (program.entriesOf method) := by
    rw [held.callSites_eq]
    refine filter_flatMap_of_mem (fun other site member => ?_) (Handle.nodup_upTo _) listed
    rw [held.caller_of_mem_entriesOf member]
  obtain ⟨source, _, stored⟩ := held.stored found
  have sourced := stored.sourceOf
  rw [found] at sourced
  rw [own, held.places stored, Option.some.inj sourced]

theorem places_eq : program.callSites.map program.placeOf =
    sources.flatMap DetachedMethod.places := by
  rw [held.callSites_eq, List.map_flatMap]
  exact flatMap_eq_of_forall₂ held.methods fun _ _ => held.places

end Holds

end Program

end CallResolution
