import FinLang.Function
import FinLang.Store.Arena

namespace FinLang

-- One level of names. A scope opened by a call knows the function called.
structure Scope where
  name : String
  -- Bindings are kept in the order of their declaration.
  vars : List (String × VarId)
  funcs : List Function
  belongsTo : Option Function
  -- Drawing context of the host application, handed down to inner scopes.
  figure : Option Int
  parent : Option ScopeId
deriving Inhabited

namespace Scope

def varNamed? (s : Scope) (name : String) : Option VarId :=
  s.vars.lookup name

def funcNamed? (s : Scope) (name : String) : Option Function :=
  s.funcs.find? fun f => f.name == name

end Scope

structure Scopes where
  arena : Arena .scope Scope
deriving Inhabited

namespace Scopes

def empty : Scopes :=
  ⟨Arena.empty⟩

def liveCount (s : Scopes) : Nat :=
  s.arena.live

def contains (s : Scopes) (id : ScopeId) : Bool :=
  s.arena.contains id

def lookup (s : Scopes) (id : ScopeId) : Except Failure Scope :=
  match s.arena.get? id with
  | some scope => .ok scope
  | none => .error (.of (.staleScope id))

def figure? (s : Scopes) (id : ScopeId) : Option Int :=
  (s.arena.get? id).bind Scope.figure

-- A new scope. The parent need not exist any more.
def create (s : Scopes) (name : String) (parent : Option ScopeId) : ScopeId × Scopes :=
  let scope : Scope :=
    { name := name
      vars := []
      funcs := []
      belongsTo := none
      figure := parent.bind s.figure?
      parent := parent }
  let (id, arena) := s.arena.insert scope
  (id, ⟨arena⟩)

def modify (s : Scopes) (id : ScopeId) (f : Scope → Scope) : Scopes :=
  ⟨s.arena.modify id f⟩

def searchWithin {α : Type} (s : Scopes) (f : ScopeId → Scope → Option α) :
    Nat → ScopeId → Option α
  | 0, _ => none
  | n + 1, id =>
    match s.arena.get? id with
    | none => none
    | some scope =>
      match f id scope with
      | some found => some found
      | none => scope.parent.bind (searchWithin s f n)

-- Asks the scopes from the given one outwards and takes the first answer. A
-- scope is younger than its parent, so no more steps are taken than there are
-- slots.
def search {α : Type} (s : Scopes) (f : ScopeId → Scope → Option α) (id : ScopeId) : Option α :=
  s.searchWithin f (s.arena.slots.size + 1) id

def findVariable (s : Scopes) (id : ScopeId) (name : String) : Option VarId :=
  s.search (fun _ scope => scope.varNamed? name) id

def findFunction (s : Scopes) (id : ScopeId) (name : String) : Option Function :=
  s.search (fun _ scope => scope.funcNamed? name) id

-- The nearest scope that a call has opened.
def enclosingCall (s : Scopes) (id : ScopeId) : Option ScopeId :=
  s.search (fun id scope => scope.belongsTo.map fun _ => id) id

def callStackWithin (s : Scopes) : Nat → ScopeId → List Function
  | 0, _ => []
  | n + 1, id =>
    match s.arena.get? id with
    | none => []
    | some scope =>
      scope.belongsTo.toList ++ scope.parent.elim [] (callStackWithin s n)

-- The functions whose calls are under way, innermost first.
def callStack (s : Scopes) (id : ScopeId) : List Function :=
  s.callStackWithin (s.arena.slots.size + 1) id

end Scopes

end FinLang
