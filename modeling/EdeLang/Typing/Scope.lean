import EdeLang.Source.Position
import EdeLang.Typing.Ty

/-!
# Scopes

Scopes are numbered in the order of their creation and each but the first has a parent. The
first one, the prelude, declares the primitive types. A name denotes what the innermost scope
that declares it says about it.
-/

namespace EdeLang

/-- What a name stands for. -/
inductive EntryKind where
  | variable
  | typename
  | function
deriving DecidableEq, Repr

/-- The declaration of a name. -/
structure Entry where
  kind : EntryKind
  type : Ty
  pos : Pos

/-- Declarations in one stretch of a module. The scope of a function knows its result type. -/
structure Scope where
  parent : Option Nat
  entries : List (String × Entry)
  ret : Option Ty

namespace Scope

/-- The declaration of a name in the scope itself. -/
def find? (s : Scope) (name : String) : Option Entry := s.entries.lookup name

/-- The scope of the primitive types. -/
def prelude : Scope :=
  ⟨none, Primitive.all.map fun p => (p.name, ⟨.typename, .prim p, .builtin⟩), none⟩

end Scope

/-- All scopes, found by their number. -/
structure Scopes where
  scopes : Array Scope

namespace Scopes

/-- The number of the prelude. -/
def preludeId : Nat := 0

/-- The prelude alone. -/
def initial : Scopes := ⟨#[.prelude]⟩

def get? (s : Scopes) (id : Nat) : Option Scope := s.scopes[id]?

/-- Adds a scope, whose number comes first. -/
def push (s : Scopes) (scope : Scope) : Nat × Scopes := (s.scopes.size, ⟨s.scopes.push scope⟩)

/-- A new empty scope inside another. -/
def child (s : Scopes) (parent : Nat) : Nat × Scopes := s.push ⟨some parent, [], none⟩

/-- A new scope for the body of a function. -/
def function (s : Scopes) (parent : Nat) (ret : Ty) : Nat × Scopes :=
  s.push ⟨some parent, [], some ret⟩

/-- At most so many scopes from one outwards. -/
def walk (s : Scopes) : Nat → Nat → List Scope
  | 0, _ => []
  | steps + 1, id =>
    match s.get? id with
    | none => []
    | some scope =>
      scope :: match scope.parent with
        | none => []
        | some parent => walk s steps parent

/-- A scope and all around it, innermost first. A parent is older than its child, so the walk
takes no more steps than there are older scopes. -/
def ancestors (s : Scopes) (id : Nat) : List Scope := s.walk (id + 1) id

/-- The declaration of a name in a scope itself. -/
def findLocal? (s : Scopes) (id : Nat) (name : String) : Option Entry :=
  (s.get? id).bind fun scope => scope.find? name

/-- The declaration of a name in the innermost scope that has one. -/
def find? (s : Scopes) (id : Nat) (name : String) : Option Entry :=
  (s.ancestors id).findSome? fun scope => scope.find? name

/-- The result type of the innermost function around a scope. -/
def returnType? (s : Scopes) (id : Nat) : Option Ty :=
  (s.ancestors id).findSome? Scope.ret

/-- Declares a name in a scope. If the scope has it already the place of that declaration is
the error. -/
def add (s : Scopes) (id : Nat) (name : String) (entry : Entry) : Except Pos Scopes :=
  match s.findLocal? id name with
  | some earlier => .error earlier.pos
  | none =>
    .ok ⟨s.scopes.modify id fun scope => { scope with entries := (name, entry) :: scope.entries }⟩

end Scopes
end EdeLang
