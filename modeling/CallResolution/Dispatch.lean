import CallResolution.Hierarchy.Basic

/-!
Which methods a call can reach. A concrete dispatch starts at one receiver class and
climbs to the first visible candidate. An abstract dispatch does so for every receiver
the static type allows and fails with the first of them that fails.
-/

namespace CallResolution.Hierarchy

def accepts (hierarchy : Hierarchy) (receiver : ClassId) (requested : MethodId)
    (declarer : ClassId) (candidate : MethodId) : Except QueryError Bool :=
  match hierarchy.policy.visibility with
  | .requested => hierarchy.program.methodVisible declarer requested
  | .candidate => hierarchy.program.methodVisible receiver candidate

def answersWith (hierarchy : Hierarchy) (receiver : ClassId) (requested : MethodId)
    (signature : Signature) (declarer : ClassId) (candidate : MethodId) :
    Except QueryError Bool := do
  let entry ← hierarchy.program.requireMethod candidate
  if entry.signature == signature then hierarchy.accepts receiver requested declarer candidate
  else .ok false

def acceptedAmong? (hierarchy : Hierarchy) (receiver : ClassId) (requested : MethodId)
    (signature : Signature) (declarer : ClassId) :
    List MethodId → Except QueryError (Option MethodId)
  | [] => .ok none
  | candidate :: rest => do
    let accepted ← hierarchy.answersWith receiver requested signature declarer candidate
    if accepted then .ok (some candidate)
    else hierarchy.acceptedAmong? receiver requested signature declarer rest

def acceptedIn? (hierarchy : Hierarchy) (receiver : ClassId) (requested : MethodId)
    (signature : Signature) : List ClassId → Except QueryError (Option MethodId)
  | [] => .ok none
  | declarer :: above => do
    let entry ← hierarchy.program.requireEntry declarer
    let found ← hierarchy.acceptedAmong? receiver requested signature declarer entry.methods
    match found with
    | some target => .ok (some target)
    | none => hierarchy.acceptedIn? receiver requested signature above

/-- The method that runs when `method` is called on an object of exactly this class. -/
def concreteTarget (hierarchy : Hierarchy) (receiver : ClassId) (method : MethodId) :
    Except QueryError MethodId := do
  let receiverEntry ← hierarchy.program.requireClass receiver
  let requested ← hierarchy.program.requireMethod method
  let lookedThrough ← hierarchy.superClassesIncluding receiver
  let found ← hierarchy.acceptedIn? receiver method requested.signature lookedThrough
  match found with
  | some target => .ok target
  | none => .error (.noConcreteDispatch receiverEntry.name requested.render)

/-- Classes whose objects an expression of static type `id` may denote, abstract classes
among them. -/
def receivers (hierarchy : Hierarchy) (id : ClassId) : Query (List ClassId) := do
  let entry ← Query.ofExcept (hierarchy.program.requireEntry id)
  if entry.isInterface then
    let implementers ← hierarchy.implementers id
    let groups ← implementers.mapM hierarchy.subClassesIncluding
    pure groups.flatten.eraseDups
  else
    hierarchy.subClassesIncluding id

/-- The target of `method` on one receiver; an abstract class has no objects and so none. -/
def targetOn (hierarchy : Hierarchy) (method : MethodId) (receiver : ClassId) :
    Except QueryError (List MethodId) := do
  let entry ← hierarchy.program.requireEntry receiver
  if entry.isAbstract then .ok []
  else
    let target ← hierarchy.concreteTarget receiver method
    .ok [target]

def targetsOn (hierarchy : Hierarchy) (receivers : List ClassId) (method : MethodId) :
    Except QueryError (List MethodId) := do
  let groups ← receivers.mapM (hierarchy.targetOn method)
  .ok groups.flatten.eraseDups

def abstractTargets (hierarchy : Hierarchy) (id : ClassId) (method : MethodId) :
    Query (List MethodId) := do
  let receivers ← hierarchy.receivers id
  Query.ofExcept (hierarchy.targetsOn receivers method)

/-- The entry method that runs later when an object of the class is constructed. The
first rule whose interface the class declares and whose entry it has decides. -/
def deferredEntry (hierarchy : Hierarchy) (id : ClassId) :
    Except QueryError (Option MethodId) := do
  let entry ← hierarchy.program.requireEntry id
  .ok <| hierarchy.policy.deferred.findSome? fun rule =>
    if entry.declaresInterface rule.interfaceName then
      hierarchy.program.findMethodNamed? id rule.entry
    else none

def deferredCall (hierarchy : Hierarchy) (callee : MethodEntry) :
    Except QueryError (Option MethodId) :=
  if callee.isConstructor then hierarchy.deferredEntry callee.owner else .ok none

/-- The target of a call that is not dispatched on its receiver. Constructors stand for
their deferred entry if they have one. A call from a super-class of the callee's class is
dispatched on the caller's class. -/
def specialTarget (hierarchy : Hierarchy) (method container : MethodId) :
    Except QueryError MethodId := do
  let callee ← hierarchy.program.requireMethod method
  let caller ← hierarchy.program.requireMethod container
  let deferred ← hierarchy.deferredCall callee
  match deferred with
  | some entry => .ok entry
  | none =>
    if callee.isConstructor || callee.modifiers.isPrivate then .ok method
    else
      let calleeClass ← hierarchy.program.requireEntry callee.owner
      if calleeClass.isInterface then .ok method
      else
        let callerClass ← hierarchy.program.requireEntry caller.owner
        if callerClass.isInterface then .ok method
        else
          let above ← hierarchy.isSubClass callee.owner caller.owner
          if above then hierarchy.concreteTarget caller.owner method else .ok method

def targets (hierarchy : Hierarchy) (kind : InvocationKind) (method container : MethodId) :
    Query (List MethodId) :=
  match kind with
  | .virtual | .interface | .dynamic => do
    let entry ← Query.ofExcept (hierarchy.program.requireMethod method)
    hierarchy.abstractTargets entry.owner method
  | .special => do
    let target ← Query.ofExcept (hierarchy.specialTarget method container)
    pure [target]
  | .static => pure [method]

end CallResolution.Hierarchy
