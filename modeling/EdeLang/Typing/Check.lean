import EdeLang.Diagnostic
import EdeLang.Typing.FlowGraph
import EdeLang.Typing.Scope

/-!
# Type checking

The checker visits the nodes of a module in order and gives each its type. A node gets its type
once; a tree that has been visited before is refused at the first node that would get a second
one. The tree that a visit leaves carries the types given so far, also if the visit fails.
-/

namespace EdeLang

/-- Why a visit failed: the module has no type, or it was visited before. -/
inductive CheckError where
  | diagnostic (d : Diagnostic)
  | typedTwice

def CheckError.message : CheckError → String
  | .diagnostic d => d.text
  | .typedTwice => "node type assigned twice"

/-- A node after a visit, and what the visit found. -/
structure Visit (α β : Type) where
  node : α
  found : Except CheckError β

namespace Visit

variable {α β γ δ : Type}

/-- A visit that failed. -/
def fail (node : α) (e : TypeError) (pos : Pos) : Visit α β := ⟨node, .error (.diagnostic (e.at pos))⟩

/-- Goes on after the visit of a part. If that failed the whole is put together as it is. -/
def andThen (v : Visit α β) (whole : α → γ) (next : α → β → Visit γ δ) : Visit γ δ :=
  match v.found with
  | .error e => ⟨whole v.node, .error e⟩
  | .ok b => next v.node b

/-- Ends the visit of a node by giving it its type. -/
def settle (info : Info) (whole : Info → γ) (type : Ty) : Visit γ Ty :=
  match info.type with
  | some _ => ⟨whole info, .error .typedTwice⟩
  | none => ⟨whole ⟨info.pos, some type⟩, .ok type⟩

/-- Visits a part that may be missing. -/
def optional (visit : α → Visit α β) : Option α → Visit (Option α) (Option β)
  | none => ⟨none, .ok none⟩
  | some a => (visit a).andThen some fun a b => ⟨some a, .ok (some b)⟩

end Visit

namespace Scopes

/-! ## Type expressions -/

mutual

/-- The type that an expression denotes in a scope. -/
def resolve (s : Scopes) (id : Nat) : TypeExpr → Visit TypeExpr Ty
  | .name info name =>
    match s.find? id name with
    | none => .fail (.name info name) (.unknownId name) info.pos
    | some entry =>
      if entry.kind = .typename then .settle info (fun i => .name i name) entry.type
      else .fail (.name info name) (.unresolvableTypeName name) info.pos
  | .array info elem =>
    (resolve s id elem).andThen (fun elem => .array info elem) fun elem type =>
      .settle info (fun i => .array i elem) (.array type)
  | .tuple info elems =>
    (resolveAll s id elems).andThen (fun elems => .tuple info elems) fun elems types =>
      .settle info (fun i => .tuple i elems) (.tuple types)
  | .record info items =>
    (resolveItems s id items).andThen (fun items => .record info items) fun items fields =>
      .settle info (fun i => .record i items) (.object "" fields)

/-- The types of expressions in order. -/
def resolveAll (s : Scopes) (id : Nat) : List TypeExpr → Visit (List TypeExpr) (List Ty)
  | [] => ⟨[], .ok []⟩
  | t :: ts =>
    (resolve s id t).andThen (fun t => t :: ts) fun t type =>
      (resolveAll s id ts).andThen (fun ts => t :: ts) fun ts types => ⟨t :: ts, .ok (type :: types)⟩

/-- The names and types of items in order. -/
def resolveItems (s : Scopes) (id : Nat) :
    List (Item TypeExpr) → Visit (List (Item TypeExpr)) (List (String × Ty))
  | [] => ⟨[], .ok []⟩
  | ⟨pos, name, t⟩ :: items =>
    (resolve s id t).andThen (fun t => ⟨pos, name, t⟩ :: items) fun t type =>
      (resolveItems s id items).andThen (fun items => ⟨pos, name, t⟩ :: items) fun items fields =>
        ⟨⟨pos, name, t⟩ :: items, .ok ((name, type) :: fields)⟩

end

/-! ## Expressions -/

/-- The type of a variable that is used at a place. -/
def variableType (s : Scopes) (id : Nat) (name : String) : Except TypeError Ty :=
  match s.find? id name with
  | none => .error (.unknownId name)
  | some entry => if entry.kind = .variable then .ok entry.type else .error (.unknownVariable name)

/-- The parameters and the result type of a function. -/
def signature? (s : Scopes) (id : Nat) (name : String) : Option (List (String × Ty) × Ty) :=
  match s.find? id name with
  | some ⟨.function, .func params ret, _⟩ => some (params, ret)
  | _ => none

/-- The type of an object by its name. -/
def object? (s : Scopes) (id : Nat) (name : String) : Option Ty :=
  match s.find? id name with
  | some ⟨.typename, .object object fields, _⟩ => some (.object object fields)
  | _ => none

mutual

/-- The type of an expression in a scope. -/
def checkExpr (s : Scopes) (id : Nat) : Expr → Visit Expr Ty
  | .literal info value => .settle info (fun i => .literal i value) value.type
  | .ident info name =>
    match s.variableType id name with
    | .error e => .fail (.ident info name) e info.pos
    | .ok type => .settle info (fun i => .ident i name) type
  | .binop info op left right =>
    (checkExpr s id left).andThen (fun left => .binop info op left right) fun left l =>
      (checkExpr s id right).andThen (fun right => .binop info op left right) fun right r =>
        match op.resultType l r with
        | some type => .settle info (fun i => .binop i op left right) type
        | none => .fail (.binop info op left right) (.invalidBinop op l r) info.pos
  | .assign info name value =>
    match s.variableType id name with
    | .error e => .fail (.assign info name value) e info.pos
    | .ok expected =>
      (checkExpr s id value).andThen (fun value => .assign info name value) fun value found =>
        if expected == found then .settle info (fun i => .assign i name value) expected
        else .fail (.assign info name value) (.invalidAssignment expected found) info.pos
  | .array info elems =>
    (checkElems s id none elems).andThen (fun elems => .array info elems) fun elems type =>
      match type with
      | some type => .settle info (fun i => .array i elems) (.array type)
      | none => .fail (.array info elems) .cannotDeduce info.pos
  | .tuple info elems =>
    (checkExprs s id elems).andThen (fun elems => .tuple info elems) fun elems types =>
      .settle info (fun i => .tuple i elems) (.tuple types)
  | .object info name inits =>
    match s.object? id name with
    | none => .fail (.object info name inits) (.undefinedObject name) info.pos
    | some type =>
      (checkInits s id type [] inits).andThen (fun inits => .object info name inits)
        fun inits _ => .settle info (fun i => .object i name inits) type
  | .call info name args =>
    match s.signature? id name with
    | none => .fail (.call info name args) (.undefinedFunction name) info.pos
    | some (params, ret) =>
      if params.length = args.length then
        (checkArgs s id args params).andThen (fun args => .call info name args)
          fun args _ => .settle info (fun i => .call i name args) ret
      else
        .fail (.call info name args) (.invalidArity name params.length args.length) info.pos
  | .default info type =>
    (resolve s id type).andThen (fun type => .default info type) fun type found =>
      .settle info (fun i => .default i type) found

/-- The types of expressions in order. -/
def checkExprs (s : Scopes) (id : Nat) : List Expr → Visit (List Expr) (List Ty)
  | [] => ⟨[], .ok []⟩
  | e :: es =>
    (checkExpr s id e).andThen (fun e => e :: es) fun e type =>
      (checkExprs s id es).andThen (fun es => e :: es) fun es types => ⟨e :: es, .ok (type :: types)⟩

/-- The common type of elements, which the first one fixes. -/
def checkElems (s : Scopes) (id : Nat) (expected : Option Ty) :
    List Expr → Visit (List Expr) (Option Ty)
  | [] => ⟨[], .ok expected⟩
  | e :: es =>
    (checkExpr s id e).andThen (fun e => e :: es) fun e found =>
      match expected with
      | none =>
        (checkElems s id (some found) es).andThen (fun es => e :: es)
          fun es type => ⟨e :: es, .ok type⟩
      | some type =>
        if type == found then
          (checkElems s id (some type) es).andThen (fun es => e :: es)
            fun es type => ⟨e :: es, .ok type⟩
        else .fail (e :: es) (.unexpectedType type found) e.pos

/-- Arguments must have the types of the parameters. -/
def checkArgs (s : Scopes) (id : Nat) : List Expr → List (String × Ty) → Visit (List Expr) Unit
  | e :: es, (_, expected) :: params =>
    (checkExpr s id e).andThen (fun e => e :: es) fun e found =>
      if found == expected then
        (checkArgs s id es params).andThen (fun es => e :: es) fun es _ => ⟨e :: es, .ok ()⟩
      else .fail (e :: es) (.unexpectedType expected found) e.pos
  | es, _ => ⟨es, .ok ()⟩

/-- Initialisers must name different fields of a type and have their types. -/
def checkInits (s : Scopes) (id : Nat) (type : Ty) (seen : List String) :
    List (String × Expr) → Visit (List (String × Expr)) Unit
  | [] => ⟨[], .ok ()⟩
  | (field, e) :: inits =>
    if seen.contains field then .fail ((field, e) :: inits) (.reinitialization field) e.pos
    else
      match type.field? field with
      | none => .fail ((field, e) :: inits) (.unexpectedInitialization field) e.pos
      | some expected =>
        (checkExpr s id e).andThen (fun e => (field, e) :: inits) fun e found =>
          if found == expected then
            (checkInits s id type (field :: seen) inits).andThen (fun inits => (field, e) :: inits)
              fun inits _ => ⟨(field, e) :: inits, .ok ()⟩
          else .fail ((field, e) :: inits) (.unexpectedType expected found) e.pos

end

/-- A condition must be a truth value. -/
def checkCondition (s : Scopes) (id : Nat) (test : Expr) : Visit Expr Unit :=
  (checkExpr s id test).andThen (fun test => test) fun test found =>
    if found == Ty.bool then ⟨test, .ok ()⟩
    else .fail test (.unexpectedType .bool found) test.pos

/-! ## Statements -/

/-- The type of a variable from its declared type and that of its initial value. -/
def declaredType : Option Ty → Option Ty → Except TypeError Ty
  | some expected, some found =>
    if expected == found then .ok expected else .error (.invalidAssignment expected found)
  | some type, none | none, some type => .ok type
  | none, none => .error .cannotDeduce

/-- The end of the visit of a statement. -/
def settleStmt (s : Scopes) (info : Info) (whole : Info → Stmt) (type : Ty) :
    Visit Stmt (Ty × Scopes) :=
  (Visit.settle info whole type).andThen (fun stmt => stmt) fun stmt type =>
    ⟨stmt, .ok (type, s)⟩

mutual

/-- The type of a statement in a scope, and the scopes after it. -/
def checkStmt (s : Scopes) (id : Nat) : Stmt → Visit Stmt (Ty × Scopes)
  | .var info name type init =>
    (Visit.optional (resolve s id) type).andThen (fun type => .var info name type init)
      fun type declared =>
        (Visit.optional (checkExpr s id) init).andThen (fun init => .var info name type init)
          fun init found =>
            match declaredType declared found with
            | .error e => .fail (.var info name type init) e info.pos
            | .ok declared =>
              match s.add id name ⟨.variable, declared, info.pos⟩ with
              | .error earlier =>
                .fail (.var info name type init) (.idConflict name earlier) info.pos
              | .ok s => settleStmt s info (fun i => .var i name type init) .unit
  | .expr info e =>
    (checkExpr s id e).andThen (fun e => .expr info e) fun e type =>
      settleStmt s info (fun i => .expr i e) type
  | .block info stmts =>
    let (inner, s) := s.child id
    (checkStmts s inner .unit stmts).andThen (fun stmts => .block info stmts)
      fun stmts (last, s) => settleStmt s info (fun i => .block i stmts) last
  | .cond info test yes none =>
    (checkCondition s id test).andThen (fun test => .cond info test yes none) fun test _ =>
      let (inner, s) := s.child id
      (checkStmt s inner yes).andThen (fun yes => .cond info test yes none)
        fun yes (type, s) => settleStmt s info (fun i => .cond i test yes none) type
  | .cond info test yes (some no) =>
    (checkCondition s id test).andThen (fun test => .cond info test yes (some no)) fun test _ =>
      let (inner, s) := s.child id
      (checkStmt s inner yes).andThen (fun yes => .cond info test yes (some no))
        fun yes (yesType, s) =>
          let (inner, s) := s.child id
          (checkStmt s inner no).andThen (fun no => .cond info test yes (some no))
            fun no (noType, s) =>
              if yesType == noType then
                settleStmt s info (fun i => .cond i test yes (some no)) yesType
              else
                .fail (.cond info test yes (some no)) (.incompatibleIfElse yesType noType) no.pos
  | .loop info test body =>
    (checkCondition s id test).andThen (fun test => .loop info test body) fun test _ =>
      let (inner, s) := s.child id
      (checkStmt s inner body).andThen (fun body => .loop info test body)
        fun body (_, s) => settleStmt s info (fun i => .loop i test body) .unit
  | .ret info value =>
    match s.returnType? id with
    | none => .fail (.ret info value) .returnOutsideFunction info.pos
    | some expected =>
      (Visit.optional (checkExpr s id) value).andThen (fun value => .ret info value)
        fun value found =>
          if found.getD .unit == expected then settleStmt s info (fun i => .ret i value) .unit
          else
            .fail (.ret info value) (.unexpectedType expected (found.getD .unit))
              (match value with
               | some e => e.pos
               | none => info.pos)

/-- The type of the last of some statements. -/
def checkStmts (s : Scopes) (id : Nat) (last : Ty) :
    List Stmt → Visit (List Stmt) (Ty × Scopes)
  | [] => ⟨[], .ok (last, s)⟩
  | stmt :: stmts =>
    (checkStmt s id stmt).andThen (fun stmt => stmt :: stmts) fun stmt (type, s) =>
      (checkStmts s id type stmts).andThen (fun stmts => stmt :: stmts)
        fun stmts last => ⟨stmt :: stmts, .ok last⟩

end

/-! ## Definitions -/

/-- Declares parameters as variables. -/
def addParams (s : Scopes) (id : Nat) :
    List (Item TypeExpr) → List (String × Ty) → Except Diagnostic Scopes
  | item :: items, (name, type) :: params =>
    match s.add id name ⟨.variable, type, item.pos⟩ with
    | .error earlier => .error ((TypeError.idConflict name earlier).at item.pos)
    | .ok s => addParams s id items params
  | _, _ => .ok s

/-- The scope of a function body, in which the function and its parameters are declared. -/
def enterFunction (s : Scopes) (id : Nat) (f : Func) (pos : Pos) (params : List (String × Ty))
    (ret : Ty) : Except Diagnostic (Nat × Scopes) :=
  let (inner, s) := s.function id ret
  match s.add inner f.name ⟨.function, .func params ret, pos⟩ with
  | .error earlier => .error ((TypeError.idConflict f.name earlier).at pos)
  | .ok s => (s.addParams inner f.params params).map fun s => (inner, s)

/-- A function that returns a value must not fall off its end. -/
def missingReturn? (f : Func) (ret : Ty) : Option Diagnostic :=
  if ret == Ty.unit then none
  else f.body.fallsOff?.map fun pos => (TypeError.missingReturn f.name).at pos

/-- The type of a function. -/
def checkFunc (s : Scopes) (id : Nat) (pos : Pos) (f : Func) : Visit Func (Ty × Scopes) :=
  match s.find? id f.name with
  | some earlier => .fail f (.idConflict f.name earlier.pos) pos
  | none =>
    (resolveItems s id f.params).andThen (fun params => { f with params := params })
      fun params fields =>
        let f := { f with params := params }
        (resolve s id f.ret).andThen (fun ret => { f with ret := ret }) fun retExpr ret =>
          let f := { f with ret := retExpr }
          match s.enterFunction id f pos fields ret with
          | .error d => ⟨f, .error (.diagnostic d)⟩
          | .ok (inner, s) =>
            (checkStmt s inner f.body).andThen (fun body => { f with body := body })
              fun body (_, s) =>
                let f := { f with body := body }
                match missingReturn? f ret with
                | some d => ⟨f, .error (.diagnostic d)⟩
                | none =>
                  match s.add id f.name ⟨.function, .func fields ret, pos⟩ with
                  | .error earlier => .fail f (.idConflict f.name earlier) pos
                  | .ok s => ⟨f, .ok (.func fields ret, s)⟩

/-- The type of a definition, and the scopes after it. A definition may not take a name that can
be seen. -/
def checkDef (s : Scopes) (id : Nat) : Def → Visit Def (Ty × Scopes)
  | .object info name fields =>
    match s.find? id name with
    | some earlier => .fail (.object info name fields) (.idConflict name earlier.pos) info.pos
    | none =>
      (resolveItems s id fields).andThen (fun fields => .object info name fields)
        fun items fields =>
          match s.add id name ⟨.typename, .object name fields, info.pos⟩ with
          | .error earlier =>
            .fail (.object info name items) (.idConflict name earlier) info.pos
          | .ok s =>
            (Visit.settle info (fun i => Def.object i name items) (.object name fields)).andThen
              (fun d => d) fun d type => ⟨d, .ok (type, s)⟩
  | .func info f =>
    (checkFunc s id info.pos f).andThen (fun f => .func info f) fun f (type, s) =>
      (Visit.settle info (fun i => Def.func i f) type).andThen (fun d => d)
        fun d type => ⟨d, .ok (type, s)⟩

/-- The scopes after definitions. -/
def checkDefs (s : Scopes) (id : Nat) : List Def → Visit (List Def) Scopes
  | [] => ⟨[], .ok s⟩
  | d :: ds =>
    (checkDef s id d).andThen (fun d => d :: ds) fun d (_, s) =>
      (checkDefs s id ds).andThen (fun ds => d :: ds) fun ds s => ⟨d :: ds, .ok s⟩

end Scopes

/-- Checks a module: its definitions and then its statements, in one scope. -/
def Module.check (m : Module) : Visit Module Ty :=
  let (id, s) := Scopes.initial.child Scopes.preludeId
  (s.checkDefs id m.defs).andThen (fun defs => { m with defs := defs }) fun defs s =>
    (s.checkStmts id .unit m.stmts).andThen
      (fun stmts => { m with defs := defs, stmts := stmts }) fun stmts _ =>
        match m.type with
        | some _ => ⟨{ m with defs := defs, stmts := stmts }, .error .typedTwice⟩
        | none => ⟨⟨m.name, defs, stmts, some .unit⟩, .ok .unit⟩

end EdeLang
