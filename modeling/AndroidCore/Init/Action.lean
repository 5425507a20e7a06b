import Mathlib.Tactic.Ring

/-!
# `AndroidCore.Init.Action`: the actions of `init` and their queue

The model of `action.cpp`. An action is a list of commands with its triggers. The
`ActionManager` has a queue of events. `executeOneCommand` takes events off that queue until
one of them matches an action, and then executes one command of the first action that is
still to be executed.

* Actions are known by their addresses, as in the source: the queue of the actions to
  execute and a builtin event hold pointers. The address of a new action comes with the
  request that makes it, so that the addresses of freed actions can be used again.
* `executeOneCommand` is `none` when the source would follow a dangling pointer, index
  `commands_` out of range or erase behind the end of `actions_`.
* What a command does is not part of the model, but for the requests that it makes to the
  manager. `ClearQueue` is not among them.
* Files, lines, subcontexts and log messages are left out: nothing below reads them.
-/

namespace AndroidCore.Init

/-- A string, as the list of its characters. -/
abbrev Str := List Char

/-! ### `Action` -/

/-- `Command`: its builtin function, and the words of its line. -/
structure Command where
  func : Nat
  args : List Str
  deriving DecidableEq, Repr

/-- `Action`. -/
structure Action where
  address : Nat
  oneshot : Bool
  propertyTriggers : List (Str × Str)
  eventTrigger : Str
  commands : List Command
  deriving DecidableEq, Repr

/-- An element of the event queue: an `EventTrigger`, a `PropertyChange` or a
`BuiltinAction`. -/
inductive Event where
  | eventTrigger (trigger : Str)
  | propertyChange (name value : Str)
  | builtinAction (action : Nat)
  deriving DecidableEq, Repr

namespace Action

/-- The constructor. -/
def new (address : Nat) (oneshot : Bool) : Action where
  address := address
  oneshot := oneshot
  propertyTriggers := []
  eventTrigger := []
  commands := []

/-- `emplace` of a `std::map`, in the order of its keys; `none` when the key is there. -/
def emplace (name value : Str) : List (Str × Str) → Option (List (Str × Str))
  | [] => some [(name, value)]
  | (n, v) :: rest =>
    if name < n then some ((name, value) :: (n, v) :: rest)
    else if name = n then none
    else (emplace name value rest).map ((n, v) :: ·)

/-- `"property:"`. -/
def propStr : Str := ['p', 'r', 'o', 'p', 'e', 'r', 't', 'y', ':']

/-- `Action::ParsePropertyTrigger`. -/
def parsePropertyTrigger (a : Action) (trigger : Str) : Except String Action :=
  let prop := trigger.drop propStr.length
  if '=' ∈ prop then
    let name := prop.takeWhile (· ≠ '=')
    let value := prop.drop (name.length + 1)
    match emplace name value a.propertyTriggers with
    | some propertyTriggers => .ok { a with propertyTriggers }
    | none => .error "multiple property triggers found for same property"
  else .error "property trigger found without matching '='"

/-- One word of the triggers, at the place `i`. -/
def initTrigger (a : Action) (i : Nat) (arg : Str) : Except String Action :=
  if arg = [] then .error "empty trigger is not valid"
  else if i % 2 = 1 then
    if arg ≠ ['&', '&'] then .error "&& is the only symbol allowed to concatenate actions"
    else .ok a
  else if arg.take propStr.length = propStr then a.parsePropertyTrigger arg
  else if a.eventTrigger ≠ [] then .error "multiple event triggers are not allowed"
  else .ok { a with eventTrigger := arg }

/-- `Action::InitTriggers`, from the place `i` on. -/
def initTriggersFrom : Nat → Action → List Str → Except String Action
  | _, a, [] => .ok a
  | i, a, arg :: args => do
      let a ← a.initTrigger i arg
      initTriggersFrom (i + 1) a args

/-- `Action::InitTriggers`. -/
def initTriggers (a : Action) (args : List Str) : Except String Action :=
  initTriggersFrom 0 a args

/-- `Action::AddCommand`. -/
def addCommand (a : Action) (command : Command) : Action :=
  { a with commands := a.commands ++ [command] }

/-- The loop of `Action::CheckPropertyTriggers`. -/
def checkTriggers (getProperty : Str → Str) (name value : Str) : Bool → List (Str × Str) → Bool
  | found, [] => found
  | found, (triggerName, triggerValue) :: rest =>
    if triggerName = name then
      if triggerValue ≠ ['*'] ∧ triggerValue ≠ value then false
      else checkTriggers getProperty name value true rest
    else
      let propVal := getProperty triggerName
      if propVal = [] ∨ (triggerValue ≠ ['*'] ∧ triggerValue ≠ propVal) then false
      else checkTriggers getProperty name value found rest

/-- `Action::CheckPropertyTriggers`. -/
def checkPropertyTriggers (getProperty : Str → Str) (a : Action) (name value : Str) : Bool :=
  if a.propertyTriggers = [] then true
  else checkTriggers getProperty name value (name = []) a.propertyTriggers

/-- `Action::CheckEvent`. -/
def checkEvent (getProperty : Str → Str) (a : Action) : Event → Bool
  | .eventTrigger trigger =>
    trigger = a.eventTrigger ∧ a.checkPropertyTriggers getProperty [] [] = true
  | .propertyChange name value =>
    a.eventTrigger = [] ∧ a.checkPropertyTriggers getProperty name value = true
  | .builtinAction action => a.address = action

end Action

/-! ### `ActionManager` -/

/-- `ActionManager`. -/
structure ActionManager where
  actions : List Action
  eventQueue : List Event
  currentExecutingActions : List Nat
  currentCommand : Nat
  deriving DecidableEq, Repr

/-- A request to the manager, with the address of the action it makes. -/
inductive Request where
  | queueEventTrigger (trigger : Str)
  | queuePropertyChange (name value : Str)
  | queueAllPropertyActions
  | queueBuiltinAction (address : Nat) (func : Nat) (name : Str)
  | endSection (action : Action)
  deriving DecidableEq, Repr

namespace ActionManager

/-- A manager with parsed actions. -/
def new (actions : List Action) : ActionManager where
  actions := actions
  eventQueue := []
  currentExecutingActions := []
  currentCommand := 0

/-- `ActionManager::AddAction`. -/
def addAction (m : ActionManager) (action : Action) : ActionManager :=
  { m with actions := m.actions ++ [action] }

/-- `event_queue_.emplace`. -/
def queueEvent (m : ActionManager) (event : Event) : ActionManager :=
  { m with eventQueue := m.eventQueue ++ [event] }

/-- The action of `QueueBuiltinAction`. -/
def builtinAction (address func : Nat) (name : Str) : Except String Action := do
  let action ← (Action.new address true).initTriggers [name]
  return action.addCommand ⟨func, [name]⟩

/-- `ActionManager::QueueBuiltinAction`. -/
def queueBuiltinAction (m : ActionManager) (address func : Nat) (name : Str) : ActionManager :=
  match builtinAction address func name with
  | .ok action => (m.queueEvent (.builtinAction action.address)).addAction action
  | .error _ => m

/-- A request. `EndSection` adds the parsed action only if it has a command. -/
def request (m : ActionManager) : Request → ActionManager
  | .queueEventTrigger trigger => m.queueEvent (.eventTrigger trigger)
  | .queuePropertyChange name value => m.queueEvent (.propertyChange name value)
  | .queueAllPropertyActions => m.queueEvent (.propertyChange [] [])
  | .queueBuiltinAction address func name => m.queueBuiltinAction address func name
  | .endSection action => if 0 < action.commands.length then m.addAction action else m

/-- The requests that a command makes. -/
def requests (m : ActionManager) (rs : List Request) : ActionManager := rs.foldl request m

/-- The actions that match an event, in the order of their definition. -/
def matching (getProperty : Str → Str) (actions : List Action) (event : Event) : List Action :=
  actions.filter fun a => a.checkEvent getProperty event

/-- The loop of `ExecuteOneCommand`: events are taken off the queue until one of them matches
an action. The second component are the events that were taken. -/
def dequeueLoop (getProperty : Str → Str) (actions : List Action) :
    List Event → List Event × List Event × List Action
  | [] => ([], [], [])
  | event :: queue =>
    match matching getProperty actions event with
    | [] =>
      let (queue, taken, found) := dequeueLoop getProperty actions queue
      (queue, event :: taken, found)
    | a :: as => (queue, [event], a :: as)

/-- The start of `ExecuteOneCommand`, and the events that it takes off the queue. -/
def dequeue (m : ActionManager) (getProperty : Str → Str) : ActionManager × List Event :=
  if m.currentExecutingActions = [] then
    let (queue, taken, found) := dequeueLoop getProperty m.actions m.eventQueue
    ({ m with eventQueue := queue, currentExecutingActions := found.map Action.address }, taken)
  else (m, [])

/-- `std::remove_if` for the action at an address, and `erase` of one element: `none` when
there is nothing to erase. -/
def eraseAction (actions : List Action) (address : Nat) : Option (List Action) :=
  let kept := actions.filter fun a => a.address ≠ address
  if kept.length = actions.length then none
  else some (kept ++ (actions.drop kept.length).tail)

/-- The end of `ExecuteOneCommand`, behind the command of the action. -/
def finishCommand (m : ActionManager) (action : Action) : Option ActionManager :=
  let m := { m with currentCommand := m.currentCommand + 1 }
  if m.currentCommand = action.commands.length then
    let m := { m with
      currentExecutingActions := m.currentExecutingActions.tail
      currentCommand := 0 }
    if action.oneshot then do
      let actions ← eraseAction m.actions action.address
      return { m with actions }
    else some m
  else some m

/-- What a call of `ExecuteOneCommand` has done: the events it took off the queue, and the
command it executed. -/
structure Executed where
  taken : List Event
  command : Option Command
  deriving DecidableEq, Repr

/-- `ActionManager::ExecuteOneCommand`, where the command makes the requests `rs`. -/
def executeOneCommand (m : ActionManager) (getProperty : Str → Str) (rs : List Request) :
    Option (ActionManager × Executed) :=
  let (m, taken) := m.dequeue getProperty
  match m.currentExecutingActions with
  | [] => some (m, ⟨taken, none⟩)
  | address :: _ => do
      let action ← m.actions.find? fun a => a.address = address
      let command ← action.commands[m.currentCommand]?
      let m ← (m.requests rs).finishCommand action
      return (m, ⟨taken, some command⟩)

/-- `ActionManager::HasMoreCommands`. -/
def hasMoreCommands (m : ActionManager) : Bool :=
  m.currentExecutingActions ≠ [] ∨ m.eventQueue ≠ []

end ActionManager

/-! ### Runs -/

/-- A step of a run: a request from outside, or a call of `ExecuteOneCommand` with the
properties of that time and the requests that its command makes, if there is one. -/
inductive Step where
  | request (r : Request)
  | execute (getProperty : Str → Str) (rs : List Request)

/-- What a run has done so far: the events queued; the events taken off the queue, each with
the actions and the properties of that time; and the commands executed. -/
structure Trace where
  queued : List Event
  dequeued : List (Event × List Action × (Str → Str))
  executed : List Command

namespace ActionManager

/-- The events that requests have added to the queue. -/
def added (before after : ActionManager) : List Event :=
  after.eventQueue.drop before.eventQueue.length

/-- One step of a run. -/
def step (s : ActionManager × Trace) : Step → Option (ActionManager × Trace)
  | .request r =>
    let m := s.1.request r
    some (m, { s.2 with queued := s.2.queued ++ added s.1 m })
  | .execute getProperty rs => do
      let (m, e) ← s.1.executeOneCommand getProperty rs
      -- the command runs behind the loop over the queue
      let before := (s.1.dequeue getProperty).1
      return (m, {
        queued := s.2.queued ++
          if e.command.isSome then added before (before.requests rs) else []
        dequeued := s.2.dequeued ++ e.taken.map fun event => (event, s.1.actions, getProperty)
        executed := s.2.executed ++ e.command.toList })

/-- A run from parsed actions. -/
def run (actions : List Action) (steps : List Step) : Option (ActionManager × Trace) :=
  steps.foldlM step (new actions, ⟨[], [], []⟩)

end ActionManager

end AndroidCore.Init
