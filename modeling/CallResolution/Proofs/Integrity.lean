import CallResolution.Proofs.Sources

/-!
References of a loaded program. Classes, methods and blocks refer to each other in both
directions, and names are looked up besides. All of this tells the same story, the one that the
declarations tell.
-/

namespace CallResolution

theorem flatMap_eq_of_forall₂ {α β γ : Type} {relation : α → β → Prop} {left : List α}
    {right : List β} {first : α → List γ} {second : β → List γ}
    (related : List.Forall₂ relation left right)
    (same : ∀ item other, relation item other → first item = second other) :
    left.flatMap first = right.flatMap second := by
  induction related with
  | nil => rfl
  | cons head _ ih => rw [List.flatMap_cons, List.flatMap_cons, same _ _ head, ih]

theorem Handle.consecutive_of_upTo {arena : Arena} {count : Nat}
    {before middle after : List (Handle arena)}
    (split : upTo arena count = before ++ (middle ++ after)) :
    middle = (List.range' before.length middle.length).map Handle.mk := by
  have total : count = before.length + (middle.length + after.length) := by
    have lengths := congrArg List.length split
    simpa using lengths
  rw [total, upTo_add, ← List.range'_append_1, List.map_append] at split
  have rest := (List.append_inj split (by simp)).2
  exact (List.append_inj rest (by simp)).1.symm

namespace Program

def blocksOf (program : Program) (id : MethodId) : List BlockId :=
  ((program.method? id).map MethodEntry.blocks).getD []

def sourceOf (program : Program) (entry : MethodEntry) : DetachedMethod :=
  ⟨entry.className, ⟨entry.signature, entry.modifiers,
    (entry.blocks.filterMap program.block?).map BlockEntry.statements⟩⟩

variable {program : Program} {classes : List ClassDecl} {sources : List DetachedMethod}

theorem Stores.blocksOf {method : MethodId} {source : DetachedMethod}
    (stored : program.Stores method source) :
    (program.blocksOf method).map program.block? =
      source.method.blocks.map fun statements => some ⟨method, statements⟩ := by
  obtain ⟨entry, found, _, _, _, _, bodies⟩ := stored
  rw [Program.blocksOf, found]
  exact bodies

theorem Stores.filterMap_block? {method : MethodId} {source : DetachedMethod}
    (stored : program.Stores method source) :
    (program.blocksOf method).filterMap program.block? =
      source.method.blocks.map (BlockEntry.mk method) := by
  have looked := congrArg (List.filterMap id) stored.blocksOf
  rw [List.filterMap_map, List.filterMap_map] at looked
  simpa using looked

theorem Stores.sourceOf {method : MethodId} {source : DetachedMethod}
    (stored : program.Stores method source) :
    (program.method? method).map program.sourceOf = some source := by
  have bodies := stored.filterMap_block?
  obtain ⟨entry, found, _, className, signature, modifiers, _⟩ := stored
  rw [Program.blocksOf, found] at bodies
  rw [found]
  have statements : (entry.blocks.filterMap program.block?).map BlockEntry.statements =
      source.method.blocks := by
    change (entry.blocks.filterMap program.block?) = _ at bodies
    rw [bodies, List.map_map]
    exact List.map_id _
  simp only [Option.map_some, Program.sourceOf, className, signature, modifiers, statements]

theorem Stores.method_eq {method : MethodId} {source : DetachedMethod}
    (stored : program.Stores method source) {block : BlockId}
    (member : block ∈ program.blocksOf method) :
    ∃ entry, program.block? block = some entry ∧ entry.method = method := by
  have looked : program.block? block ∈ (program.blocksOf method).map program.block? :=
    List.mem_map_of_mem member
  rw [stored.blocksOf] at looked
  obtain ⟨statements, _, same⟩ := List.mem_map.mp looked
  exact ⟨_, same.symm, rfl⟩

namespace Holds

variable (held : program.Holds classes sources)

include held

theorem stored {method : MethodId} {entry : MethodEntry}
    (found : program.method? method = some entry) : ∃ source ∈ sources,
      program.Stores method source := by
  have listed : method ∈ program.methodIds :=
    Handle.mem_upTo.mpr (Array.getElem?_eq_some_iff.mp found).1
  obtain ⟨source, member, stored⟩ := mem_of_forall₂ held.methods.flip listed
  exact ⟨source, member, stored⟩

theorem nodup_methodsOf (id : ClassId) : (program.methodsOf id).Nodup := by
  rw [held.listed]
  exact (Handle.nodup_upTo _).filter _

theorem mem_methodsOf {id : ClassId} {method : MethodId} : method ∈ program.methodsOf id ↔
    ∃ entry, program.method? method = some entry ∧ entry.owner = id := by
  rw [held.listed, List.mem_filter, ownedBy, Option.any_eq_true, methodIds, Handle.mem_upTo]
  constructor
  · rintro ⟨_, entry, found, owner⟩
    exact ⟨entry, found, by simpa using owner⟩
  · rintro ⟨entry, found, owner⟩
    exact ⟨(Array.getElem?_eq_some_iff.mp found).1, entry, found, by simpa using owner⟩

theorem classId?_className {method : MethodId} {entry : MethodEntry}
    (found : program.method? method = some entry) :
    program.classId? entry.className = some entry.owner := by
  obtain ⟨source, _, again, foundAgain, owner, className, _⟩ := held.stored found
  cases found.symm.trans foundAgain
  rw [className, owner]

theorem identity_at {method : MethodId} {entry : MethodEntry}
    (found : program.method? method = some entry) :
    (sources.map DetachedMethod.identity)[method.index]? =
      some (entry.className, entry.signature) := by
  have bound : method.index < program.methodIds.length := by
    simpa [methodIds] using (Array.getElem?_eq_some_iff.mp found).1
  obtain ⟨length, related⟩ := List.forall₂_iff_get.mp held.methods
  obtain ⟨again, foundAgain, _, className, signature, _⟩ := related method.index bound (length ▸ bound)
  have here : program.method? method = some again := by
    simpa [methodIds, Handle.upTo] using foundAgain
  cases found.symm.trans here
  rw [List.getElem?_map, List.getElem?_eq_getElem (length ▸ bound), className, signature]
  rfl

theorem method_unique {id : ClassId} {signature : Signature} {first second : MethodId}
    (firstListed : first ∈ program.methodsOf id) (secondListed : second ∈ program.methodsOf id)
    (firstSigned : program.hasSignature signature first = true)
    (secondSigned : program.hasSignature signature second = true) : first = second := by
  obtain ⟨entry, found, rfl⟩ := held.mem_methodsOf.mp firstListed
  obtain ⟨other, otherFound, sameOwner⟩ := held.mem_methodsOf.mp secondListed
  have className : other.className = entry.className :=
    classId?_injective (sameOwner ▸ held.classId?_className otherFound)
      (held.classId?_className found)
  have signed : entry.signature = signature := by simpa [hasSignature, found] using firstSigned
  have otherSigned : other.signature = signature := by
    simpa [hasSignature, otherFound] using secondSigned
  have here := held.identity_at found
  have there := held.identity_at otherFound
  rw [className, otherSigned, ← signed, ← here] at there
  have bound := (List.getElem?_eq_some_iff.mp here).1
  exact Handle.eq_of_index_eq ((List.getElem?_inj bound held.identities).mp there.symm)

theorem findMethod?_eq_some {className : String} {signature : Signature} {method : MethodId} :
    program.findMethod? className signature = some method ↔
      ∃ entry, program.method? method = some entry ∧ entry.className = className ∧
        entry.signature = signature := by
  constructor
  · intro found
    obtain ⟨id, named, chosen⟩ := Option.bind_eq_some_iff.mp found
    obtain ⟨entry, listed, owner⟩ := held.mem_methodsOf.mp (List.mem_of_find?_eq_some chosen)
    have passes : program.hasSignature signature method = true := List.find?_some chosen
    rw [hasSignature, listed] at passes
    refine ⟨entry, listed, ?_, by simpa using passes⟩
    exact classId?_injective (held.classId?_className listed) (owner ▸ named)
  · rintro ⟨entry, found, rfl, rfl⟩
    have named := held.classId?_className found
    have member := held.mem_methodsOf.mpr ⟨entry, found, rfl⟩
    have passes : program.hasSignature entry.signature method = true := by
      simp [hasSignature, found]
    refine Option.bind_eq_some_iff.mpr ⟨entry.owner, named, ?_⟩
    obtain ⟨first, chosen⟩ := Option.isSome_iff_exists.mp
      (List.find?_isSome.mpr ⟨method, member, passes⟩)
    have same : first = method :=
      held.method_unique (List.mem_of_find?_eq_some chosen) member (List.find?_some chosen) passes
    rw [← same, chosen]

theorem methods_eq : program.methods.toList.map program.sourceOf = sources := by
  have read : program.methodIds.map (fun id => (program.method? id).map program.sourceOf) =
      sources.map some := by
    rw [← List.forall₂_eq_eq_eq, List.forall₂_map_left_iff, List.forall₂_map_right_iff]
    exact held.methods.imp fun _ _ stored => stored.sourceOf
  have entries : program.methodIds.map program.method? = program.methods.toList.map some :=
    Handle.map_upTo .methods program.methods
  have looked := congrArg (List.map (Option.map program.sourceOf)) entries
  rw [List.map_map, List.map_map] at looked
  apply List.map_injective_iff.mpr fun _ _ => Option.some.inj
  rw [List.map_map, ← read]
  exact looked.symm

theorem blockIds_eq : program.blockIds = program.methodIds.flatMap program.blocksOf := by
  have entries : program.methodIds.map program.method? = program.methods.toList.map some :=
    Handle.map_upTo .methods program.methods
  have looked := congrArg
    (List.flatMap fun entry => (entry.map MethodEntry.blocks).getD []) entries
  rw [List.flatMap_map, List.flatMap_map] at looked
  exact held.grouped.trans looked.symm

theorem blocks_eq : program.blocks.toList.map BlockEntry.statements =
    sources.flatMap fun source => source.method.blocks := by
  have entries : program.blockIds.filterMap program.block? = program.blocks.toList :=
    Handle.filterMap_upTo program.blocks
  rw [← entries, held.blockIds_eq, List.filterMap_flatMap, List.map_flatMap]
  refine flatMap_eq_of_forall₂ held.methods fun method source stored => ?_
  rw [stored.filterMap_block?, List.map_map]
  exact List.map_id _

theorem exists_method {block : BlockId} {blockEntry : BlockEntry}
    (found : program.block? block = some blockEntry) :
    ∃ entry, program.method? blockEntry.method = some entry ∧ block ∈ entry.blocks := by
  have listed : block ∈ program.blockIds :=
    Handle.mem_upTo.mpr (Array.getElem?_eq_some_iff.mp found).1
  rw [held.blockIds_eq] at listed
  obtain ⟨method, _, member⟩ := List.mem_flatMap.mp listed
  cases entryFound : program.method? method with
  | none => simp [blocksOf, entryFound] at member
  | some entry =>
      obtain ⟨_, _, stored⟩ := held.stored entryFound
      obtain ⟨again, foundAgain, rfl⟩ := stored.method_eq member
      cases found.symm.trans foundAgain
      exact ⟨entry, entryFound, by simpa [blocksOf, entryFound] using member⟩

theorem mem_blocks {method : MethodId} {entry : MethodEntry}
    (found : program.method? method = some entry) {block : BlockId} : block ∈ entry.blocks ↔
      ∃ blockEntry, program.block? block = some blockEntry ∧ blockEntry.method = method := by
  constructor
  · intro member
    obtain ⟨_, _, stored⟩ := held.stored found
    exact stored.method_eq (by simpa [blocksOf, found] using member)
  · rintro ⟨blockEntry, blockFound, rfl⟩
    obtain ⟨again, foundAgain, member⟩ := held.exists_method blockFound
    cases found.symm.trans foundAgain
    exact member

theorem consecutive {method : MethodId} {entry : MethodEntry}
    (found : program.method? method = some entry) :
    ∃ first, entry.blocks = (List.range' first entry.blocks.length).map Handle.mk := by
  have listed : method ∈ program.methodIds :=
    Handle.mem_upTo.mpr (Array.getElem?_eq_some_iff.mp found).1
  obtain ⟨before, after, split⟩ := List.append_of_mem listed
  have grouped := held.blockIds_eq
  rw [split, List.flatMap_append, List.flatMap_cons] at grouped
  have blocks : program.blocksOf method = entry.blocks := by simp [blocksOf, found]
  rw [blocks] at grouped
  exact ⟨_, Handle.consecutive_of_upTo grouped⟩

theorem method_le {left right : BlockId} {leftEntry rightEntry : BlockEntry}
    (leftFound : program.block? left = some leftEntry)
    (rightFound : program.block? right = some rightEntry) (order : left.index ≤ right.index) :
    leftEntry.method.index ≤ rightEntry.method.index := by
  have increasing : program.blockIds.Pairwise fun first second => first.index < second.index :=
    Handle.upTo_increasing program.blocks.size
  rw [held.blockIds_eq, List.pairwise_flatMap, List.pairwise_iff_getElem] at increasing
  obtain ⟨entry, entryFound, leftMember⟩ := held.exists_method leftFound
  obtain ⟨other, otherFound, rightMember⟩ := held.exists_method rightFound
  have bound := (Array.getElem?_eq_some_iff.mp entryFound).1
  by_contra later
  have before : rightEntry.method.index < leftEntry.method.index := by omega
  have ordered := increasing.2 _ _ (by simp only [methodIds, Handle.length_upTo]; omega)
    (by simpa [methodIds] using bound) before
  simp only [methodIds, Handle.upTo, List.getElem_map, List.getElem_range] at ordered
  have reversed := ordered right (by simpa [blocksOf, otherFound] using rightMember) left
    (by simpa [blocksOf, entryFound] using leftMember)
  omega

theorem wellFormed : program.WellFormed := by
  refine ⟨fun id method member => ?_, fun id entry found => ?_, fun id entry found => ?_⟩
  · obtain ⟨_, found, _⟩ := held.mem_methodsOf.mp member
    exact (Array.getElem?_eq_some_iff.mp found).1
  · exact classId?_bound (held.classId?_className found)
  · obtain ⟨_, methodFound, _⟩ := held.exists_method found
    exact (Array.getElem?_eq_some_iff.mp methodFound).1

end Holds

theorem load_wellFormed {detached : List DetachedMethod}
    (loaded : load classes detached = .ok program) : program.WellFormed :=
  (load_holds loaded).wellFormed

structure Integral (program : Program) : Prop where
  classIds : ∀ name id, program.classId? name = some id ↔
    ∃ entry, program.class? id = some entry ∧ entry.name = name
  methods : ∀ id classEntry, program.class? id = some classEntry → classEntry.methods.Nodup ∧
    ∀ method, method ∈ classEntry.methods ↔
      ∃ entry, program.method? method = some entry ∧ entry.owner = id
  owners : ∀ method entry, program.method? method = some entry →
    ∃ classEntry, program.class? entry.owner = some classEntry ∧ method ∈ classEntry.methods ∧
      entry.className = classEntry.name
  identities : ∀ className signature method,
    program.findMethod? className signature = some method ↔
      ∃ entry, program.method? method = some entry ∧ entry.className = className ∧
        entry.signature = signature
  blocks : ∀ method entry, program.method? method = some entry → ∀ block, block ∈ entry.blocks ↔
    ∃ blockEntry, program.block? block = some blockEntry ∧ blockEntry.method = method
  callers : ∀ block blockEntry, program.block? block = some blockEntry →
    ∃ entry, program.method? blockEntry.method = some entry ∧ block ∈ entry.blocks
  consecutive : ∀ method entry, program.method? method = some entry →
    ∃ first, entry.blocks = (List.range' first entry.blocks.length).map Handle.mk
  grouped : ∀ left right leftEntry rightEntry, program.block? left = some leftEntry →
    program.block? right = some rightEntry → left.index ≤ right.index →
    leftEntry.method.index ≤ rightEntry.method.index

theorem Holds.integral (held : program.Holds classes sources) : program.Integral where
  classIds _ _ := classId?_eq_some held.unique
  methods id classEntry found := by
    have listed : program.methodsOf id = classEntry.methods := by simp [methodsOf, found]
    rw [← listed]
    exact ⟨held.nodup_methodsOf id, fun _ => held.mem_methodsOf⟩
  owners method entry found := by
    obtain ⟨classEntry, listed, name⟩ := class?_of_classId? (held.classId?_className found)
    have member := held.mem_methodsOf.mpr ⟨entry, found, rfl⟩
    exact ⟨classEntry, listed, by simpa [methodsOf, listed] using member, name.symm⟩
  identities _ _ _ := held.findMethod?_eq_some
  blocks _ _ found _ := held.mem_blocks found
  callers _ _ := held.exists_method
  consecutive _ _ := held.consecutive
  grouped _ _ _ _ := held.method_le

structure Reproduces (program : Program) (classes : List ClassDecl)
    (detached : List DetachedMethod) : Prop where
  headings : program.classes.toList.map ClassEntry.heading = classes.map ClassDecl.heading
  methods : program.methods.toList.map program.sourceOf = Program.sources classes detached
  blocks : program.blocks.toList.map BlockEntry.statements =
    (Program.sources classes detached).flatMap fun source => source.method.blocks

theorem load_integral {detached : List DetachedMethod}
    (loaded : load classes detached = .ok program) :
    program.Integral ∧ program.Reproduces classes detached ∧
      ∃ registry, Registry.load classes detached = .ok registry ∧ registry.program = program ∧
        ∀ name, registry.classId? name = program.classId? name := by
  obtain ⟨registry, loading, rfl, held⟩ := load_registry loaded
  have program := held.program
  exact ⟨program.integral, ⟨program.headings, program.methods_eq, program.blocks_eq⟩,
    registry, loading, rfl, held.indexed⟩

def scatteredClasses : List ClassDecl :=
  [⟨"a.A", none, [], .publicBit, [⟨⟨"x", []⟩, .publicBit, []⟩]⟩,
    ⟨"a.B", some "a.A", ["a.I"], .empty,
      [⟨⟨"y", []⟩, .empty, [[], [.other "nop"]]⟩, ⟨⟨"y", ["int"]⟩, .staticBit, []⟩]⟩]

def scatteredMethods : List DetachedMethod :=
  [⟨"a.A", ⟨⟨"y", []⟩, .privateBit, [[.other "return"]]⟩⟩]

def scatteredProgram : Program :=
  (load scatteredClasses scatteredMethods).toOption.getD .empty

theorem load_integral_scattered :
    load scatteredClasses scatteredMethods = .ok scatteredProgram ∧
    scatteredProgram.Integral ∧ scatteredProgram.Reproduces scatteredClasses scatteredMethods ∧
    scatteredProgram.methodsOf ⟨0⟩ = [⟨0⟩, ⟨3⟩] ∧
    scatteredProgram.findMethod? "a.A" ⟨"y", []⟩ = some ⟨3⟩ ∧
    scatteredProgram.blocks.toList.map BlockEntry.method = [⟨1⟩, ⟨1⟩, ⟨3⟩] := by
  have loaded : load scatteredClasses scatteredMethods = .ok scatteredProgram := by decide +kernel
  obtain ⟨integral, reproduces, _⟩ := load_integral loaded
  exact ⟨loaded, integral, reproduces, by decide +kernel, by decide +kernel, by decide +kernel⟩

end Program

end CallResolution
