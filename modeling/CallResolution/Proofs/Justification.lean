import CallResolution.Proofs.Building
import CallResolution.Proofs.Lookup

/-!
Why there is an edge. A call site stands on an edge because its call can reach the method at
the other end, and for each kind of call there are only a few ways to do that.
-/

namespace CallResolution

open Resolution

namespace Program

def Inherits (program : Program) (id : ClassId) (target : MethodId) : Prop :=
  ∃ declarer ∈ id :: program.ancestors id, target ∈ program.methodsOf declarer

/-- Constructing an object of the class is taken as a call of the target. -/
def Defers (program : Program) (policy : Policy) (id : ClassId) (target : MethodId) : Prop :=
  ∃ classEntry entry, program.class? id = some classEntry ∧
    program.method? target = some entry ∧ target ∈ program.methodsOf id ∧
    ∃ rule ∈ policy.deferred, classEntry.declaresInterface rule.interfaceName = true ∧
      entry.signature.name = rule.entry

/-- A call found in `caller` that names `callee`, a method of the class `id`, may run
`target`. -/
def Justifies (program : Program) (policy : Policy) (caller : MethodId) (invocation : Invocation)
    (id : ClassId) (callee target : MethodId) : Prop :=
  match invocation.kind with
  | .static => target = callee
  | .special => target = callee ∨
      invocation.signature.name = "<init>" ∧ program.Defers policy id target ∨
      program.hasSignature invocation.signature target = true ∧
        ∃ callerEntry, program.method? caller = some callerEntry ∧
          callerEntry.owner ∈ program.ancestors id ∧ program.Inherits callerEntry.owner target
  | .virtual | .interface | .dynamic =>
      program.hasSignature invocation.signature target = true ∧
        (target = callee ∨ ∃ receiver, program.isConcrete receiver = true ∧
          program.Receives policy id receiver ∧ program.Inherits receiver target)

variable {program : Program}

theorem justifies_named {policy : Policy} {caller callee : MethodId} {invocation : Invocation}
    {id : ClassId} (signature : program.hasSignature invocation.signature callee = true) :
    program.Justifies policy caller invocation id callee callee := by
  unfold Justifies
  split
  · rfl
  · exact .inl rfl
  · exact ⟨signature, .inl rfl⟩
  · exact ⟨signature, .inl rfl⟩
  · exact ⟨signature, .inl rfl⟩

end Program

namespace Hierarchy

variable {hierarchy : Hierarchy}

theorem concreteTarget_inherits {receiver : ClassId} {method target : MethodId}
    {entry : MethodEntry} (named : hierarchy.program.method? method = some entry)
    (dispatched : hierarchy.concreteTarget receiver method = .ok target) :
    hierarchy.program.hasSignature entry.signature target = true ∧
      hierarchy.program.Inherits receiver target := by
  obtain ⟨_, again, declarer, listed, member, signature, _⟩ := concreteTarget_ok dispatched
  cases named.symm.trans again
  exact ⟨signature, declarer, listed, member⟩

theorem deferredEntry_ok {id : ClassId} {target : MethodId}
    (deferred : hierarchy.deferredEntry id = .ok (some target)) :
    hierarchy.program.Defers hierarchy.policy id target := by
  obtain ⟨classEntry, required, rest⟩ := bind_eq_ok.mp deferred
  obtain ⟨rule, member, chosen⟩ := List.exists_of_findSome?_eq_some (Except.ok.inj rest)
  split at chosen
  · rename_i declares
    unfold Program.findMethodNamed? at chosen
    have passes := List.find?_some chosen
    obtain ⟨entry, listed, name⟩ := (Option.any_eq_true _ _).mp passes
    exact ⟨classEntry, entry, Program.requireEntry_eq_ok.mp required, listed,
      List.mem_of_find?_eq_some chosen, rule, member, declares, by simpa using name⟩
  · cases chosen

theorem specialTarget_ok {method container target : MethodId} {entry : MethodEntry}
    (named : hierarchy.program.method? method = some entry)
    (answered : hierarchy.specialTarget method container = .ok target) :
    target = method ∨
      entry.signature.name = "<init>" ∧
        hierarchy.program.Defers hierarchy.policy entry.owner target ∨
      hierarchy.program.hasSignature entry.signature target = true ∧
        ∃ callerEntry, hierarchy.program.method? container = some callerEntry ∧
          callerEntry.owner ∈ hierarchy.program.ancestors entry.owner ∧
          hierarchy.program.Inherits callerEntry.owner target := by
  obtain ⟨callee, required, rest⟩ := bind_eq_ok.mp answered
  cases named.symm.trans (Program.requireMethod_eq_ok.mp required)
  obtain ⟨caller, callerRequired, rest⟩ := bind_eq_ok.mp rest
  have callerListed := Program.requireMethod_eq_ok.mp callerRequired
  obtain ⟨deferred, looked, rest⟩ := bind_eq_ok.mp rest
  cases deferred with
  | some first =>
      cases rest
      unfold deferredCall at looked
      split at looked
      · rename_i constructs
        exact .inr (.inl ⟨by simpa [MethodEntry.isConstructor] using constructs,
          deferredEntry_ok looked⟩)
      · cases looked
  | none =>
      dsimp only at rest
      split at rest
      · cases rest
        exact .inl rfl
      · obtain ⟨calleeClass, _, rest⟩ := bind_eq_ok.mp rest
        split at rest
        · cases rest
          exact .inl rfl
        · obtain ⟨callerClass, _, rest⟩ := bind_eq_ok.mp rest
          split at rest
          · cases rest
            exact .inl rfl
          · obtain ⟨above, compared, rest⟩ := bind_eq_ok.mp rest
            obtain ⟨ancestors, climbed, contained⟩ := bind_eq_ok.mp compared
            obtain ⟨_, _, same⟩ := bind_eq_ok.mp climbed
            cases same
            cases contained
            split at rest
            · rename_i listed
              obtain ⟨signature, inherits⟩ := concreteTarget_inherits named rest
              exact .inr (.inr ⟨signature, caller, callerListed, by simpa using listed, inherits⟩)
            · cases rest
              exact .inl rfl

theorem ok_of_mem_singleton {answer : Except QueryError MethodId} {group : List MethodId}
    {target : MethodId} (answered : answer.map ([·]) = .ok group) (member : target ∈ group) :
    answer = .ok target := by
  cases answer with
  | error error => cases answered
  | ok first =>
      cases answered
      rw [List.mem_singleton.mp member]

theorem targetOn_inherits {receiver : ClassId} {method target : MethodId} {entry : MethodEntry}
    {group : List MethodId} (named : hierarchy.program.method? method = some entry)
    (isClass : hierarchy.program.isClass receiver = true)
    (answered : hierarchy.targetOn method receiver = .ok group) (member : target ∈ group) :
    hierarchy.program.isConcrete receiver = true ∧
      hierarchy.program.hasSignature entry.signature target = true ∧
      hierarchy.program.Inherits receiver target := by
  obtain ⟨receiverEntry, listed, _⟩ := (Option.any_eq_true _ _).mp isClass
  rw [targetOn_eq method listed] at answered
  split at answered
  · rename_i concrete
    exact ⟨concrete, concreteTarget_inherits named (ok_of_mem_singleton answered member)⟩
  · cases answered
    simp at member

theorem PartOf.justifies {caller callee target : MethodId} {invocation : Invocation}
    {part : Except QueryError (List MethodId)} {group : List MethodId} {entry : MethodEntry}
    (partOf : hierarchy.PartOf callee caller invocation.kind part) (answered : part = .ok group)
    (member : target ∈ group) (named : hierarchy.program.method? callee = some entry)
    (signature : entry.signature = invocation.signature) :
    hierarchy.program.Justifies hierarchy.policy caller invocation entry.owner callee target := by
  unfold Program.Justifies
  rw [← signature]
  generalize invocation.kind = kind at partOf
  cases partOf with
  | dispatched dynamic listed receives =>
      cases named.symm.trans listed
      obtain ⟨concrete, sameSignature, inherits⟩ :=
        targetOn_inherits named receives.isClass answered member
      cases kind with
      | virtual => exact ⟨sameSignature, .inr ⟨_, concrete, receives, inherits⟩⟩
      | interface => exact ⟨sameSignature, .inr ⟨_, concrete, receives, inherits⟩⟩
      | dynamic => exact ⟨sameSignature, .inr ⟨_, concrete, receives, inherits⟩⟩
      | special => cases dynamic
      | static => cases dynamic
  | special => exact specialTarget_ok named (ok_of_mem_singleton answered member)
  | static =>
      cases answered
      exact List.mem_singleton.mp member

theorem Resolves.justifies {classes : List ClassDecl} {sources : List DetachedMethod}
    (held : hierarchy.program.Holds classes sources) {caller target : MethodId}
    {invocation : Invocation} {outcome : CallTarget}
    (resolves : hierarchy.Resolves caller invocation outcome) (member : target ∈ outcome.targets) :
    ∃ id callee, hierarchy.program.classId? invocation.className = some id ∧
      hierarchy.program.findMethod? invocation.className invocation.signature = some callee ∧
      hierarchy.program.Justifies hierarchy.policy caller invocation id callee target := by
  cases resolves with
  | external => simp [CallTarget.targets] at member
  | missing => simp [CallTarget.targets] at member
  | @resolved callee targets found _ gathers =>
      obtain ⟨id, entry, known, declared, named, signature⟩ := Program.findMethod?_some found
      obtain ⟨_, again, owner⟩ := held.mem_methodsOf.mp declared
      cases named.symm.trans again
      obtain ⟨group, partOf, inGroup⟩ := (gathers.complete target).mp member
      exact ⟨id, callee, known, found,
        owner ▸ partOf.justifies rfl inGroup named signature⟩
  | @unresolved callee found =>
      obtain ⟨id, entry, known, _, named, signature⟩ := Program.findMethod?_some found
      rw [CallTarget.targets, List.mem_singleton] at member
      subst member
      exact ⟨id, target, known, found,
        Program.justifies_named (by simp [Program.hasSignature, named, signature])⟩

end Hierarchy

namespace CallGraph

variable {program : Program}

theorem Records.mem_edge {callGraph : CallGraph} {targets : CallSite → List MethodId}
    (records : callGraph.Records (program.mentions targets) (program.resolutions targets))
    (unique : ∀ site ∈ program.callSites, (targets site).Nodup)
    {edge : Edge (List CallSite)} (listed : edge ∈ callGraph.graph.edges) {site : CallSite}
    (onEdge : site ∈ edge.data) :
    ∃ target, callGraph.graph.node? edge.source = some site.caller ∧
      callGraph.graph.node? edge.target = some target ∧ site ∈ program.callSites ∧
      target ∈ targets site := by
  obtain ⟨position, found⟩ := List.mem_iff_getElem?.mp (Array.mem_toList_iff.mpr listed)
  have read : callGraph.graph.edge? ⟨position⟩ = some edge := by
    simpa [Digraph.edge?] using found
  obtain ⟨⟨caller, target⟩, _, sourceFound, targetFound, sites⟩ := records.mem_links read
  rw [sites, Program.sitesOn_resolutions unique, List.mem_filter, decide_eq_true_eq] at onEdge
  obtain ⟨member, rfl, targeted⟩ := onEdge
  exact ⟨target, (records.nodeOf _ _).mp sourceFound, (records.nodeOf _ _).mp targetFound, member,
    targeted⟩

theorem edges_justified {classes : List ClassDecl} {detached : List DetachedMethod}
    (loaded : Program.load classes detached = .ok program) (policy : Policy)
    (requests : List Request) (options : BuildOptions)
    {schedule : List (BlockId × BlockEntry)} (shuffled : schedule.Perm program.blockEntries) :
    let built := Hierarchy.afterHistory program policy requests
    ∃ callGraph events, (buildScheduled built.1 options schedule built.2).1 =
        .ok (callGraph, events) ∧
      ∀ edge ∈ callGraph.graph.edges, ∀ site ∈ edge.data, ∃ target id callee,
        callGraph.graph.node? edge.source = some site.caller ∧
        callGraph.graph.node? edge.target = some target ∧
        program.classId? site.invocation.className = some id ∧
        program.findMethod? site.invocation.className site.invocation.signature = some callee ∧
        program.Justifies policy site.caller site.invocation id callee target := by
  have held := Hierarchy.exact_afterHistory program policy requests
  obtain ⟨outcome, callGraph, _, built, _, resolves, merged⟩ :=
    buildScheduled_merges (Program.load_wellFormed loaded) options shuffled held
  refine ⟨callGraph, _, congrArg Prod.fst built, fun edge listed site onEdge => ?_⟩
  obtain ⟨target, sourceAt, targetAt, member, targeted⟩ := (records_of_merge merged).mem_edge
    (fun site member => (resolves site member).leadsTo.1) listed onEdge
  obtain ⟨id, callee, known, found, justified⟩ :=
    (resolves site member).justifies (Program.load_holds loaded) targeted
  exact ⟨target, id, callee, sourceAt, targetAt, known, found, justified⟩

def errandClasses : List ClassDecl :=
  let construct : Signature := ⟨"<init>", []⟩
  let run : Signature := ⟨"run", []⟩
  [⟨"java.lang.Runnable", none, [], .interfaceBit, [⟨run, .publicBit, []⟩]⟩,
    ⟨"Task", none, ["java.lang.Runnable"], .publicBit,
      [⟨construct, .publicBit, []⟩, ⟨run, .publicBit, [[.invoke ⟨.special, "Errand", run⟩]]⟩]⟩,
    ⟨"Errand", some "Task", [], .publicBit, [⟨run, .publicBit, []⟩]⟩,
    ⟨"Main", none, [], .publicBit, [⟨⟨"main", []⟩, .publicBit,
      [[.invoke ⟨.special, "Task", construct⟩],
        [.invoke ⟨.interface, "java.lang.Runnable", run⟩]]⟩]⟩]

def errandProgram : Program :=
  (Program.load errandClasses []).toOption.getD .empty

theorem errandProgram_loaded : Program.load errandClasses [] = .ok errandProgram := by
  decide +kernel

theorem edges_justified_errand :
    let built := Hierarchy.afterHistory errandProgram .standard [.subClasses ⟨1⟩]
    let schedule := errandProgram.blockEntries.reverse
    let site : CallSite := ⟨⟨4⟩, ⟨1⟩, 0, ⟨.special, "Task", ⟨"<init>", []⟩⟩⟩
    ∃ callGraph events, (buildScheduled built.1 .standard schedule built.2).1 =
        .ok (callGraph, events) ∧
      ∃ edge ∈ callGraph.graph.edges, site ∈ edge.data ∧ ∃ target id callee,
        callGraph.graph.node? edge.target = some target ∧
        errandProgram.findMethod? "Task" ⟨"<init>", []⟩ = some callee ∧
        errandProgram.Justifies .standard ⟨4⟩ site.invocation id callee target := by
  intro built schedule site
  have held := Hierarchy.exact_afterHistory errandProgram .standard [.subClasses ⟨1⟩]
  have shuffled : schedule.Perm errandProgram.blockEntries := List.reverse_perm _
  obtain ⟨callGraph, events, answered, justified⟩ :=
    edges_justified errandProgram_loaded .standard [.subClasses ⟨1⟩] .standard shuffled
  obtain ⟨outcome, again, _, builtAgain, _, leads, records⟩ := buildScheduled_records
    (Program.load_wellFormed errandProgram_loaded) .standard shuffled held
  cases answered.symm.trans (congrArg Prod.fst builtAgain)
  have member : site ∈ errandProgram.callSites := by decide +kernel
  obtain ⟨target, listed⟩ :=
    List.exists_mem_of_ne_nil _ ((leads site member).2 (by decide +kernel))
  have placed : (site, target) ∈
      errandProgram.resolutions fun site => (outcome site).1.targets :=
    List.mem_flatMap.mpr ⟨site, member, List.mem_map_of_mem listed⟩
  obtain ⟨source, goal, _, _, _, found⟩ := records.exists_edge (List.mem_map_of_mem placed)
  have onEdge : site ∈ sitesOn (errandProgram.resolutions fun site => (outcome site).1.targets)
      (site.caller, target) := by
    rw [Program.sitesOn_resolutions fun site member => (leads site member).1]
    simp [member, listed]
  have edge := Digraph.mem_edges_of_edge? found
  obtain ⟨reached, id, callee, _, targetAt, _, named, holds⟩ := justified _ edge site onEdge
  exact ⟨callGraph, _, answered, _, edge, onEdge, reached, id, callee, targetAt, named, holds⟩

end CallGraph

end CallResolution
