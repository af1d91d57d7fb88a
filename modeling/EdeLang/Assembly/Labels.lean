import EdeLang.Assembly.Code

/-!
# Label tables

A table maps label names to byte offsets and keeps them in the order of their definition. A name
that is defined again keeps its place and takes the new offset, and the redefinition is reported.
-/

namespace EdeLang

/-- Label names with their offsets, in definition order. -/
structure Labels where
  entries : List (String × Nat)
deriving DecidableEq, Inhabited

namespace Labels

def empty : Labels := ⟨[]⟩

def find? (labels : Labels) (name : String) : Option Nat := labels.entries.lookup name

/-- The table with a name bound to an offset, in its old place if it had one. -/
def bind (labels : Labels) (name : String) (offset : Nat) : Labels :=
  if labels.entries.any (·.1 == name) then
    ⟨labels.entries.map fun e => if e.1 == name then (e.1, offset) else e⟩
  else ⟨labels.entries ++ [(name, offset)]⟩

/-- Binds a name and reports whether it was bound before. -/
def insert (labels : Labels) (name : String) (offset : Nat) :
    Labels × Except AssemblyError Unit :=
  (labels.bind name offset,
    if labels.entries.any (·.1 == name) then .error (.redefinedLabel name) else .ok ())

def get (labels : Labels) (name : String) : Except AssemblyError Nat :=
  match labels.find? name with
  | some offset => .ok offset
  | none => .error (.undefinedLabel name)

/-- The labels at an offset. -/
def namesAt (labels : Labels) (offset : Nat) : List String :=
  (labels.entries.filter (·.2 == offset)).map (·.1)

def size (labels : Labels) : Nat := labels.entries.length

end Labels
end EdeLang
