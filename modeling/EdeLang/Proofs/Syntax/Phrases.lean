import EdeLang.Proofs.Syntax.Comments
import EdeLang.Proofs.Syntax.Fields

/-!
# Phrases of the language

The grammar as rules that derive lists of token kinds, one rule for each form of a phrase. An
expression is a flat list of atoms with operators between them. What a rule of the parser takes
from a stream is a phrase of its category.
-/

namespace EdeLang

namespace Grammar

def Operator.kind : Operator → TokenKind
  | .assign => .symbol .equal
  | .arith .add => .symbol .plus
  | .arith .sub => .symbol .minus
  | .arith .mul => .symbol .star
  | .arith .div => .symbol .slash

/-- `{ "," part }` -/
def following (parts : List (List TokenKind)) : List TokenKind :=
  parts.flatMap fun part => .symbol .comma :: part

/-- `[ part { "," part } ]` -/
def listed : List (List TokenKind) → List TokenKind
  | [] => []
  | first :: more => first ++ following more

/-- `ident ":" type` -/
def itemKinds (item : String × List TokenKind) : List TokenKind :=
  .ident item.1 :: .symbol .colon :: item.2

/-- `ident "=" expr` -/
def initKinds (init : String × List TokenKind) : List TokenKind :=
  .ident init.1 :: .symbol .equal :: init.2

def operands (more : List (Operator × List TokenKind)) : List TokenKind :=
  more.flatMap fun operand => operand.1.kind :: operand.2

/-- A name, possibly in parentheses. -/
inductive Named : List TokenKind → Prop
  | ident (name : String) : Named [.ident name]
  | paren {ts : List TokenKind} (h : Named ts) :
    Named (.symbol .lparen :: ts ++ [.symbol .rparen])

/-- Every assignment is preceded by assignments only, and the atom on its left is a name. -/
def Assignable (first : List TokenKind) (more : List (Operator × List TokenKind)) : Prop :=
  ∀ before value after, more = before ++ (.assign, value) :: after →
    (∀ operand ∈ before, operand.1 = .assign) ∧
      Named ((before.map Prod.snd).getLastD first)

inductive Category where
  | type | atom | expr | block | stmt | definition | part | module

/-- The phrases of a category. -/
inductive Derives : Category → List TokenKind → Prop
  /-- `type = ident` -/
  | typeName (name : String) : Derives .type [.ident name]
  /-- `type = "[" type "]"` -/
  | arrayType {elem : List TokenKind} (helem : Derives .type elem) :
    Derives .type (.symbol .lbracket :: elem ++ [.symbol .rbracket])
  /-- `type = "(" type "," type { "," type } ")"` -/
  | tupleType (parts : List (List TokenKind)) (hlength : 2 ≤ parts.length)
      (hparts : ∀ part ∈ parts, Derives .type part) :
    Derives .type (.symbol .lparen :: listed parts ++ [.symbol .rparen])
  /-- `type = "{" item { "," item } "}"`, with different names. -/
  | recordType (items : List (String × List TokenKind)) (hlength : 1 ≤ items.length)
      (hitems : ∀ item ∈ items, Derives .type item.2) (hnames : (items.map Prod.fst).Nodup) :
    Derives .type (.symbol .lcurly :: listed (items.map itemKinds) ++ [.symbol .rcurly])
  /-- `atom = INTEGER` -/
  | integer (v : Int64) : Derives .atom [.integer v]
  /-- `atom = STRING` -/
  | text (s : String) : Derives .atom [.text s]
  /-- `atom = CHAR` -/
  | char (c : Char) : Derives .atom [.char c]
  /-- `atom = "true"` -/
  | boolTrue : Derives .atom [.keyword .kTrue]
  /-- `atom = "false"` -/
  | boolFalse : Derives .atom [.keyword .kFalse]
  /-- `atom = "(" [ expr { "," expr } ] ")"` -/
  | paren (parts : List (List TokenKind)) (hparts : ∀ part ∈ parts, Derives .expr part) :
    Derives .atom (.symbol .lparen :: listed parts ++ [.symbol .rparen])
  /-- `atom = "[" [ expr { "," expr } ] "]"` -/
  | array (parts : List (List TokenKind)) (hparts : ∀ part ∈ parts, Derives .expr part) :
    Derives .atom (.symbol .lbracket :: listed parts ++ [.symbol .rbracket])
  /-- `atom = "default" "(" type ")"` -/
  | default {type : List TokenKind} (htype : Derives .type type) :
    Derives .atom (.keyword .kDefault :: .symbol .lparen :: type ++ [.symbol .rparen])
  /-- `atom = ident` -/
  | ident (name : String) : Derives .atom [.ident name]
  /-- `atom = ident "(" [ expr { "," expr } ] ")"` -/
  | call (name : String) (args : List (List TokenKind))
      (hargs : ∀ arg ∈ args, Derives .expr arg) :
    Derives .atom (.ident name :: .symbol .lparen :: listed args ++ [.symbol .rparen])
  /-- `atom = ident "{" [ ident "=" expr { "," ident "=" expr } ] "}"` -/
  | object (name : String) (inits : List (String × List TokenKind))
      (hinits : ∀ init ∈ inits, Derives .expr init.2) :
    Derives .atom
      (.ident name :: .symbol .lcurly :: listed (inits.map initKinds) ++ [.symbol .rcurly])
  /-- `expr = atom { binop atom }`, with names on the left of assignments. -/
  | expr {first : List TokenKind} {more : List (Operator × List TokenKind)}
      (hfirst : Derives .atom first) (hmore : ∀ operand ∈ more, Derives .atom operand.2)
      (hnames : Assignable first more) :
    Derives .expr (first ++ operands more)
  /-- `let-stmt = "let" ident ":" type ";"` -/
  | declare (name : String) {type : List TokenKind} (htype : Derives .type type) :
    Derives .stmt
      (.keyword .kLet :: .ident name :: .symbol .colon :: type ++ [.symbol .semicolon])
  /-- `let-stmt = "let" ident ":" type "=" expr ";"` -/
  | declareInit (name : String) {type init : List TokenKind} (htype : Derives .type type)
      (hinit : Derives .expr init) :
    Derives .stmt
      (.keyword .kLet :: .ident name :: .symbol .colon :: type ++
        .symbol .equal :: init ++ [.symbol .semicolon])
  /-- `let-stmt = "let" ident "=" expr ";"` -/
  | init (name : String) {init : List TokenKind} (hinit : Derives .expr init) :
    Derives .stmt
      (.keyword .kLet :: .ident name :: .symbol .equal :: init ++ [.symbol .semicolon])
  /-- `if-stmt = "if" "(" expr ")" stmt` -/
  | cond {test yes : List TokenKind} (htest : Derives .expr test) (hyes : Derives .stmt yes) :
    Derives .stmt (.keyword .kIf :: .symbol .lparen :: test ++ .symbol .rparen :: yes)
  /-- `if-stmt = "if" "(" expr ")" stmt "else" stmt` -/
  | condElse {test yes no : List TokenKind} (htest : Derives .expr test)
      (hyes : Derives .stmt yes) (hno : Derives .stmt no) :
    Derives .stmt
      (.keyword .kIf :: .symbol .lparen :: test ++ .symbol .rparen :: yes ++ .keyword .kElse :: no)
  /-- `while-stmt = "while" "(" expr ")" stmt` -/
  | loop {test body : List TokenKind} (htest : Derives .expr test) (hbody : Derives .stmt body) :
    Derives .stmt (.keyword .kWhile :: .symbol .lparen :: test ++ .symbol .rparen :: body)
  /-- `stmt = block` -/
  | blockStmt {body : List TokenKind} (hbody : Derives .block body) : Derives .stmt body
  /-- `return = "return" ";"` -/
  | ret : Derives .stmt [.keyword .kReturn, .symbol .semicolon]
  /-- `return = "return" expr ";"` -/
  | retValue {value : List TokenKind} (hvalue : Derives .expr value) :
    Derives .stmt (.keyword .kReturn :: value ++ [.symbol .semicolon])
  /-- `stmt = expr ";"` -/
  | exprStmt {e : List TokenKind} (he : Derives .expr e) :
    Derives .stmt (e ++ [.symbol .semicolon])
  /-- `block = "{" { stmt } "}"` -/
  | block (stmts : List (List TokenKind)) (hstmts : ∀ s ∈ stmts, Derives .stmt s) :
    Derives .block (.symbol .lcurly :: stmts.flatten ++ [.symbol .rcurly])
  /-- `def = "def" "object" ident "{" [ item { "," item } ] "}"`, with different names. -/
  | objectDef (name : String) (items : List (String × List TokenKind))
      (hitems : ∀ item ∈ items, Derives .type item.2) (hnames : (items.map Prod.fst).Nodup) :
    Derives .definition
      (.keyword .kDef :: .keyword .kObject :: .ident name :: .symbol .lcurly ::
        listed (items.map itemKinds) ++ [.symbol .rcurly])
  /-- `def = "def" "func" ident "(" [ item { "," item } ] ")" block`, with different names. -/
  | funcDef (name : String) (items : List (String × List TokenKind)) {body : List TokenKind}
      (hitems : ∀ item ∈ items, Derives .type item.2) (hnames : (items.map Prod.fst).Nodup)
      (hbody : Derives .block body) :
    Derives .definition
      (.keyword .kDef :: .keyword .kFunc :: .ident name :: .symbol .lparen ::
        listed (items.map itemKinds) ++ .symbol .rparen :: body)
  /-- `def = "def" "func" ident "(" [ item { "," item } ] ")" ":" type block`, with different
  names. -/
  | funcDefType (name : String) (items : List (String × List TokenKind))
      {ret body : List TokenKind} (hitems : ∀ item ∈ items, Derives .type item.2)
      (hnames : (items.map Prod.fst).Nodup) (hret : Derives .type ret)
      (hbody : Derives .block body) :
    Derives .definition
      (.keyword .kDef :: .keyword .kFunc :: .ident name :: .symbol .lparen ::
        listed (items.map itemKinds) ++ .symbol .rparen :: .symbol .colon :: ret ++ body)
  /-- `part = def` -/
  | defPart {part : List TokenKind} (hpart : Derives .definition part) : Derives .part part
  /-- `part = stmt` -/
  | stmtPart {part : List TokenKind} (hpart : Derives .stmt part) : Derives .part part
  /-- `module = { part } EOF` -/
  | module (parts : List (List TokenKind)) (hparts : ∀ part ∈ parts, Derives .part part) :
    Derives .module (parts.flatten ++ [.eof])

end Grammar

/-- The kinds of the tokens that are left, without comments. -/
def Cursor.kinds (c : Cursor) : List TokenKind := c.plain.map Token.kind

namespace Parse

variable {α β : Type} {p : Parse α} {f : α → Parse β} {R R' : α → List TokenKind → Prop}
  {S : β → List TokenKind → Prop}

/-- What the parser takes from the stream is related to its result. -/
def Takes (p : Parse α) (R : α → List TokenKind → Prop) : Prop :=
  ∀ c a c', p c = .ok a c' → ∃ ts, c.kinds = ts ++ c'.kinds ∧ R a ts

theorem takes_pure {a : α} (h : R a []) : Takes (pure a : Parse α) R := by
  intro c b c' hb
  cases hb
  exact ⟨[], rfl, h⟩

theorem takes_throw (stop : Stop) : Takes (throw stop : Parse α) R := by
  intro c a c' h
  cases h

theorem bind_eq_ok {c c' : Cursor} {b : β} (h : (p >>= f) c = .ok b c') :
    ∃ a c₁, p c = .ok a c₁ ∧ f a c₁ = .ok b c' := by
  cases hp : p c with
  | error stop c₁ =>
    rw [bind_of_error hp] at h
    cases h
  | ok a c₁ =>
    rw [bind_of_ok hp] at h
    exact ⟨a, c₁, rfl, h⟩

theorem Takes.bind (hp : Takes p R)
    (hf : ∀ a ts, R a ts → Takes (f a) fun b us => S b (ts ++ us)) : Takes (p >>= f) S := by
  intro c b c' h
  obtain ⟨a, c₁, hpc, hfc⟩ := bind_eq_ok h
  obtain ⟨ts, hts, hR⟩ := hp c a c₁ hpc
  obtain ⟨us, hus, hS⟩ := hf a ts hR c₁ b c' hfc
  exact ⟨ts ++ us, by rw [hts, hus, List.append_assoc], hS⟩

theorem Takes.mono (hp : Takes p R) (h : ∀ a ts, R a ts → R' a ts) : Takes p R' := by
  intro c a c' hpc
  obtain ⟨ts, hts, hR⟩ := hp c a c' hpc
  exact ⟨ts, hts, h a ts hR⟩

/-- A parser that only looks ahead changes nothing for the next one. -/
theorem Takes.skip (hp : Takes p fun _ ts => ts = []) (hf : ∀ a, Takes (f a) S) :
    Takes (p >>= f) S := by
  apply hp.bind
  rintro a _ rfl
  exact hf a

end Parse

namespace Cursor

open Parse

theorem kinds_skip (c : Cursor) : c.skip.kinds = c.kinds := by
  rw [kinds, plain_skip, kinds]

theorem kinds_of_peek {c c' : Cursor} {t : Token} (h : peek c = .ok t c') :
    ∃ ks, c.kinds = t.kind :: ks ∧ c'.kinds = t.kind :: ks := by
  unfold peek at h
  split at h
  · rename_i u more htokens
    cases h
    have hkinds : c.kinds = t.kind :: (plainTokens more).map Token.kind := by
      rw [kinds, plain_of_skip_tokens htokens, List.map_cons]
    exact ⟨_, hkinds, by rw [kinds_skip, hkinds]⟩
  · cases h

theorem kinds_of_next {c c' : Cursor} {t : Token} (h : next c = .ok t c') :
    c.kinds = t.kind :: c'.kinds := by
  unfold next at h
  split at h
  · rename_i u more htokens
    cases h
    rw [kinds, plain_of_skip_tokens htokens]
    rfl
  · cases h

/-- A parser that leaves the tokens as they are, with what its result tells of the next one. -/
def Sees {α : Type} (p : Parse α) (R : α → TokenKind → Prop) : Prop :=
  ∀ c a c', p c = .ok a c' → c'.kinds = c.kinds ∧ ∀ k ks, c.kinds = k :: ks → R a k

theorem sees_check (tag : Tag) : Sees (check tag) fun found k => found = (k.tag == tag) := by
  intro c found c' h
  obtain ⟨_, c₁, hask, hlook⟩ := bind_eq_ok h
  obtain ⟨t, c₂, hpeek, hpure⟩ := bind_eq_ok hlook
  cases hpure
  cases hask
  obtain ⟨ks, hbefore, hafter⟩ := kinds_of_peek hpeek
  refine ⟨hafter.trans hbefore.symm, fun k ks' hkinds => ?_⟩
  cases hbefore.symm.trans hkinds
  rfl

section

variable {α β : Type} {p : Parse α} {R : α → TokenKind → Prop} {S : α → List TokenKind → Prop}

theorem sees_pure {a : α} (h : ∀ k, R a k) : Sees (pure a : Parse α) R := by
  intro c b c' hb
  cases hb
  exact ⟨rfl, fun k _ _ => h k⟩

theorem Sees.takes (h : Sees p R) : Takes p fun _ ts => ts = [] :=
  fun c a c' hp => ⟨[], (h c a c' hp).1.symm, rfl⟩

theorem sees_orElse {a : α} {tag : Tag} (ha : ∀ k : TokenKind, k.tag = tag → R a k)
    (hp : Sees p R) : Sees (do if ← check tag then return a else p) R := by
  intro c b c' h
  obtain ⟨found, c₁, hcheck, hbranch⟩ := bind_eq_ok h
  obtain ⟨hkinds, hfound⟩ := sees_check tag c found c₁ hcheck
  cases found with
  | true =>
    cases hbranch
    exact ⟨hkinds, fun k ks hk => ha k (beq_iff_eq.mp (hfound k ks hk).symm)⟩
  | false =>
    obtain ⟨hkinds', hR⟩ := hp c₁ b c' hbranch
    exact ⟨hkinds'.trans hkinds, fun k ks hk => hR k ks (hkinds.trans hk)⟩

theorem takes_failUnexpected : Takes failUnexpected S := by
  intro c a c' h
  obtain ⟨d, c₁, -, hfail⟩ := bind_eq_ok h
  cases hfail

end

theorem takes_peek : Takes peek fun _ ts => ts = [] := by
  intro c t c' h
  obtain ⟨ks, hbefore, hafter⟩ := kinds_of_peek h
  exact ⟨[], by rw [hbefore, hafter, List.nil_append], rfl⟩

theorem takes_next : Takes next fun t ts => ts = [t.kind] :=
  fun _ t _ h => ⟨[t.kind], kinds_of_next h, rfl⟩

theorem takes_check (tag : Tag) : Takes (check tag) fun _ ts => ts = [] := (sees_check tag).takes

/-- What is seen is what is taken next. -/
theorem Sees.next {α : Type} {p : Parse α} {R : α → TokenKind → Prop} (hp : Sees p R)
    {c c₁ c₂ : Cursor} {a : α} {t : Token} (hsees : p c = .ok a c₁) (hnext : next c₁ = .ok t c₂) :
    c.kinds = t.kind :: c₂.kinds ∧ R a t.kind := by
  obtain ⟨hkinds, hR⟩ := hp c a c₁ hsees
  have htaken := hkinds.symm.trans (kinds_of_next hnext)
  exact ⟨htaken, hR _ _ htaken⟩

theorem takes_take? (tag : Tag) : Takes (take? tag) fun t ts =>
    ts = t.toList.map Token.kind ∧ ∀ u ∈ t, u.tag = tag := by
  intro c t c' h
  obtain ⟨found, c₁, hcheck, hbranch⟩ := bind_eq_ok h
  cases found with
  | false =>
    cases hbranch
    exact ⟨[], (sees_check tag c _ _ hcheck).1.symm, rfl, nofun⟩
  | true =>
    obtain ⟨u, c₂, hnext, hpure⟩ := bind_eq_ok hbranch
    cases hpure
    obtain ⟨hkinds, hfound⟩ := (sees_check tag).next hcheck hnext
    refine ⟨[u.kind], hkinds, rfl, fun v hv => ?_⟩
    cases hv
    exact beq_iff_eq.mp hfound.symm

theorem takes_expect (tag : Tag) :
    Takes (expect tag) fun t ts => ts = [t.kind] ∧ t.tag = tag := by
  apply (takes_take? tag).bind
  rintro t _ ⟨rfl, htag⟩
  cases t with
  | none => exact takes_failUnexpected
  | some t => exact takes_pure ⟨rfl, htag t rfl⟩

end Cursor

namespace Grammar

open Cursor Parse

private theorem kind_of_symbol {k : TokenKind} {s : Symbol} (h : k.tag = sym s) :
    k = .symbol s := by
  cases k <;> cases h
  rfl

private theorem kind_of_keyword {k : TokenKind} {word : Keyword} (h : k.tag = kw word) :
    k = .keyword word := by
  cases k <;> cases h
  rfl

theorem takes_symbol (s : Symbol) : Takes (expect (sym s)) fun _ ts => ts = [.symbol s] := by
  apply (takes_expect _).mono
  rintro t _ ⟨rfl, htag⟩
  rw [kind_of_symbol htag]

theorem takes_keyword (k : Keyword) : Takes (expect (kw k)) fun _ ts => ts = [.keyword k] := by
  apply (takes_expect _).mono
  rintro t _ ⟨rfl, htag⟩
  rw [kind_of_keyword htag]

theorem takes_symbol? (s : Symbol) :
    Takes (take? (sym s)) fun t ts => ts = t.elim [] fun _ => [.symbol s] := by
  apply (takes_take? _).mono
  rintro t _ ⟨rfl, htag⟩
  cases t with
  | none => rfl
  | some t =>
    have hkind := kind_of_symbol (htag t rfl)
    simp [hkind]

theorem takes_keyword? (k : Keyword) :
    Takes (take? (kw k)) fun t ts => ts = t.elim [] fun _ => [.keyword k] := by
  apply (takes_take? _).mono
  rintro t _ ⟨rfl, htag⟩
  cases t with
  | none => rfl
  | some t =>
    have hkind := kind_of_keyword (htag t rfl)
    simp [hkind]

theorem takes_ident : Takes ident fun found ts => ts = [.ident found.1] := by
  apply (takes_expect _).bind
  rintro t _ ⟨rfl, -⟩
  cases hkind : t.kind with
  | ident name => exact takes_pure rfl
  | _ => exact takes_failUnexpected

theorem takes_distinct (items : List (Item TypeExpr)) :
    Takes (distinct items) fun _ ts => ts = [] ∧ (items.map Item.name).Nodup := by
  intro c u c' h
  refine ⟨[], ?_, rfl, yields_distinct items c u c' h⟩
  unfold distinct at h
  cases hdouble : duplicate? [] items with
  | some item =>
    rw [hdouble] at h
    cases h
  | none =>
    rw [hdouble] at h
    cases h
    rfl

def Follows (category : Category) (ts : List TokenKind) : Prop :=
  ∃ parts, ts = following parts ∧ ∀ part ∈ parts, Derives category part

theorem follows_nil (category : Category) : Follows category [] := ⟨[], rfl, by simp⟩

theorem Follows.cons {category : Category} {part ts : List TokenKind}
    (hpart : Derives category part) (h : Follows category ts) :
    Follows category (.symbol .comma :: (part ++ ts)) := by
  obtain ⟨parts, rfl, hparts⟩ := h
  exact ⟨part :: parts, rfl, List.forall_mem_cons.mpr ⟨hpart, hparts⟩⟩

def FollowsNamed (named : String × List TokenKind → List TokenKind) (category : Category)
    (names : List String) (ts : List TokenKind) : Prop :=
  ∃ parts : List (String × List TokenKind), parts.map Prod.fst = names ∧
    ts = following (parts.map named) ∧ ∀ part ∈ parts, Derives category part.2

section

variable {named : String × List TokenKind → List TokenKind} {category : Category}
  {names : List String} {ts : List TokenKind}

theorem followsNamed_nil : FollowsNamed named category [] [] := ⟨[], rfl, rfl, by simp⟩

theorem FollowsNamed.cons (name : String) {part : List TokenKind} (hpart : Derives category part)
    (h : FollowsNamed named category names ts) :
    FollowsNamed named category (name :: names) (.symbol .comma :: (named (name, part) ++ ts)) := by
  obtain ⟨parts, rfl, rfl, hparts⟩ := h
  exact ⟨(name, part) :: parts, rfl, rfl, List.forall_mem_cons.mpr ⟨hpart, hparts⟩⟩

end

structure TypesTake (fuel : Nat) : Prop where
  type : Takes (type fuel) fun _ => Derives .type
  moreTypes : Takes (moreTypes fuel) fun _ => Follows .type
  item : Takes (item fuel) fun found ts =>
    ∃ type, ts = itemKinds (found.name, type) ∧ Derives .type type
  moreItems : Takes (moreItems fuel) fun found => FollowsNamed itemKinds .type (found.map Item.name)

section Types

variable {fuel : Nat} (h : TypesTake fuel)

include h

private theorem takes_type : Takes (type (fuel + 1)) fun _ => Derives .type := by
  unfold type
  apply takes_peek.skip
  intro start
  apply (takes_check _).skip
  intro isName
  split
  · apply takes_ident.bind
    rintro ⟨name, pos⟩ _ rfl
    exact takes_pure (.typeName name)
  apply (takes_check _).skip
  intro bracket
  split
  · apply (takes_symbol _).bind
    rintro _ _ rfl
    apply h.type.bind
    intro _ elem helem
    apply (takes_symbol _).bind
    rintro _ _ rfl
    exact takes_pure (.arrayType helem)
  apply (takes_check _).skip
  intro paren
  split
  · apply (takes_symbol _).bind
    rintro _ _ rfl
    apply h.type.bind
    intro _ first hfirst
    apply (takes_symbol _).bind
    rintro _ _ rfl
    apply h.type.bind
    intro _ second hsecond
    apply h.moreTypes.bind
    rintro _ _ ⟨more, rfl, hmore⟩
    apply (takes_symbol _).bind
    rintro _ _ rfl
    have htuple := Derives.tupleType (first :: second :: more) (by simp)
      (List.forall_mem_cons.mpr ⟨hfirst, List.forall_mem_cons.mpr ⟨hsecond, hmore⟩⟩)
    exact takes_pure (by simpa [listed, following] using htuple)
  apply (takes_check _).skip
  intro curly
  split
  · apply (takes_symbol _).bind
    rintro _ _ rfl
    apply h.item.bind
    rintro first _ ⟨type, rfl, htype⟩
    apply h.moreItems.bind
    rintro more _ ⟨items, hnames, rfl, hitems⟩
    apply (takes_symbol _).bind
    rintro _ _ rfl
    apply (takes_distinct _).bind
    rintro _ _ ⟨rfl, hdistinct⟩
    have hrecord := Derives.recordType ((first.name, type) :: items) (by simp)
      (List.forall_mem_cons.mpr ⟨htype, hitems⟩) (by simpa [hnames] using hdistinct)
    exact takes_pure (by simpa [listed] using hrecord)
  · exact takes_failUnexpected

private theorem takes_moreTypes : Takes (moreTypes (fuel + 1)) fun _ => Follows .type := by
  unfold moreTypes
  apply (takes_symbol? _).bind
  rintro comma _ rfl
  cases comma with
  | none => exact takes_pure (follows_nil _)
  | some _ =>
    apply h.type.bind
    intro _ part hpart
    apply h.moreTypes.bind
    intro _ rest hrest
    exact takes_pure (by simpa using hrest.cons hpart)

private theorem takes_item : Takes (item (fuel + 1)) fun found ts =>
    ∃ type, ts = itemKinds (found.name, type) ∧ Derives .type type := by
  unfold item
  apply takes_ident.bind
  rintro ⟨name, pos⟩ _ rfl
  apply (takes_symbol _).bind
  rintro _ _ rfl
  apply h.type.bind
  intro _ type htype
  exact takes_pure ⟨type, by simp [itemKinds], htype⟩

private theorem takes_moreItems : Takes (moreItems (fuel + 1)) fun found =>
    FollowsNamed itemKinds .type (found.map Item.name) := by
  unfold moreItems
  apply (takes_symbol? _).bind
  rintro comma _ rfl
  cases comma with
  | none => exact takes_pure followsNamed_nil
  | some _ =>
    apply h.item.bind
    rintro first _ ⟨type, rfl, htype⟩
    apply h.moreItems.bind
    intro more rest hrest
    exact takes_pure (by simpa using hrest.cons first.name htype)

end Types

theorem typesTake (fuel : Nat) : TypesTake fuel := by
  induction fuel with
  | zero => exact ⟨takes_throw _, takes_throw _, takes_throw _, takes_throw _⟩
  | succ fuel ih => exact ⟨takes_type ih, takes_moreTypes ih, takes_item ih, takes_moreItems ih⟩

theorem takes_items (fuel : Nat) (close : Tag) : Takes (items fuel close) fun found ts =>
    ∃ parts : List (String × List TokenKind), parts.map Prod.fst = found.map Item.name ∧
      ts = listed (parts.map itemKinds) ∧ ∀ part ∈ parts, Derives .type part.2 := by
  unfold items
  apply (takes_check close).skip
  intro closed
  split
  · exact takes_pure ⟨[], rfl, rfl, by simp⟩
  apply (typesTake fuel).item.bind
  rintro first _ ⟨type, rfl, htype⟩
  apply (typesTake fuel).moreItems.bind
  rintro more _ ⟨parts, hnames, rfl, hparts⟩
  refine takes_pure ⟨(first.name, type) :: parts, by simp [hnames], by simp [listed], ?_⟩
  exact List.forall_mem_cons.mpr ⟨htype, hparts⟩

theorem assignable_of_arith {first : List TokenKind} {more : List (Operator × List TokenKind)}
    (h : ∀ operand ∈ more, operand.1 ≠ .assign) : Assignable first more := by
  rintro before value after rfl
  exact absurd rfl (h (.assign, value) (by simp))

theorem Assignable.append {first : List TokenKind} {more tail : List (Operator × List TokenKind)}
    (h : Assignable first more) (htail : ∀ operand ∈ tail, operand.1 ≠ .assign) :
    Assignable first (more ++ tail) := by
  intro before value after heq
  rcases List.append_eq_append_iff.mp heq with ⟨mid, -, rfl⟩ | ⟨mid, rfl, hmid⟩
  · exact absurd rfl (htail (.assign, value) (by simp))
  · cases mid with
    | nil =>
      rw [List.nil_append] at hmid
      exact absurd rfl (htail (.assign, value) (by simp [← hmid]))
    | cons operand mid =>
      cases hmid
      exact h before value mid rfl

/-- An assignment in front of operands needs a name on its left only. -/
theorem assignable_assign {first value : List TokenKind}
    {more : List (Operator × List TokenKind)} :
    Assignable first ((.assign, value) :: more) ↔ Named first ∧ Assignable value more := by
  constructor
  · intro h
    refine ⟨(h [] value more rfl).2, fun before other after heq => ?_⟩
    obtain ⟨hall, hnamed⟩ := h ((.assign, value) :: before) other after (by rw [heq]; rfl)
    refine ⟨(List.forall_mem_cons.mp hall).2, ?_⟩
    rwa [List.map_cons, List.getLastD_cons] at hnamed
  · rintro ⟨hnamed, h⟩ before other after heq
    cases before with
    | nil => exact ⟨by simp, hnamed⟩
    | cons operand before =>
      cases heq
      obtain ⟨hall, hlast⟩ := h before other after rfl
      refine ⟨List.forall_mem_cons.mpr ⟨rfl, hall⟩, ?_⟩
      rwa [List.map_cons, List.getLastD_cons]

theorem Assignable.arith {first value : List TokenKind} {op : BinOp}
    {more : List (Operator × List TokenKind)} (h : Assignable first ((.arith op, value) :: more)) :
    ∀ operand ∈ more, operand.1 ≠ .assign := by
  rintro ⟨other, rest⟩ hmem rfl
  obtain ⟨before, after, rfl⟩ := List.append_of_mem hmem
  have hall := (h ((.arith op, value) :: before) rest after rfl).1
  exact absurd (hall (.arith op, value) (by simp)) nofun

/-- What has been read of an expression with operators of at least a precedence. A name is
nothing but a name. -/
def Climbed (least : Nat) (e : Expr) (ts : List TokenKind) : Prop :=
  ∃ first more, ts = first ++ operands more ∧ Derives .atom first ∧
    (∀ operand ∈ more, Derives .atom operand.2) ∧ Assignable first more ∧
    (0 < least → ∀ operand ∈ more, operand.1 ≠ .assign) ∧
    ∀ info name, e = .ident info name → more = [] ∧ Named first

theorem Climbed.expr {least : Nat} {e : Expr} {ts : List TokenKind} (h : Climbed least e ts) :
    Derives .expr ts := by
  obtain ⟨first, more, rfl, hfirst, hmore, hnames, -, -⟩ := h
  exact .expr hfirst hmore hnames

theorem Climbed.arith {least : Nat} {left right whole : Expr} {op : BinOp}
    {ts us : List TokenKind} (hleft : Climbed least left ts)
    (hright : Climbed (op.precedence + 1) right us)
    (hwhole : ∀ info name, whole ≠ .ident info name) :
    Climbed least whole (ts ++ (Operator.arith op).kind :: us) := by
  obtain ⟨first, more, rfl, hfirst, hmore, hnames, hleast, -⟩ := hleft
  obtain ⟨value, after, rfl, hvalue, hafter, -, harith, -⟩ := hright
  have htail : ∀ operand ∈ (Operator.arith op, value) :: after, operand.1 ≠ .assign :=
    List.forall_mem_cons.mpr ⟨nofun, harith (Nat.succ_pos _)⟩
  refine ⟨first, more ++ (.arith op, value) :: after, by simp [operands], hfirst, ?_,
    hnames.append htail, fun hpos => ?_, fun info name he => absurd he (hwhole info name)⟩
  · exact List.forall_mem_append.mpr ⟨hmore, List.forall_mem_cons.mpr ⟨hvalue, hafter⟩⟩
  · exact List.forall_mem_append.mpr ⟨hleast hpos, htail⟩

theorem Climbed.assign {info : Info} {name : String} {right whole : Expr} {ts us : List TokenKind}
    (hleft : Climbed 0 (.ident info name) ts) (hright : Climbed 0 right us)
    (hwhole : ∀ info name, whole ≠ .ident info name) :
    Climbed 0 whole (ts ++ Operator.assign.kind :: us) := by
  obtain ⟨first, more, rfl, hfirst, -, -, -, hname⟩ := hleft
  obtain ⟨value, after, rfl, hvalue, hafter, hnames, -, -⟩ := hright
  obtain ⟨rfl, hnamed⟩ := hname info name rfl
  refine ⟨first, (.assign, value) :: after, by simp [operands], hfirst,
    List.forall_mem_cons.mpr ⟨hvalue, hafter⟩, assignable_assign.mpr ⟨hnamed, hnames⟩, nofun,
    fun info name he => absurd he (hwhole info name)⟩

private theorem sees_peekOperator : Sees peekOperator fun op k => ∀ o ∈ op, k = o.kind := by
  have hsome : ∀ (o : Operator) (s : Symbol) (k : TokenKind), o.kind = .symbol s →
      k.tag = sym s → ∀ o' ∈ some o, k = o'.kind := by
    intro o s k hkind htag o' ho'
    cases ho'
    rw [hkind, kind_of_symbol htag]
  unfold peekOperator
  exact sees_orElse (fun k => hsome _ _ k rfl) (sees_orElse (fun k => hsome _ _ k rfl)
    (sees_orElse (fun k => hsome _ _ k rfl) (sees_orElse (fun k => hsome _ _ k rfl)
    (sees_orElse (fun k => hsome _ _ k rfl) (sees_pure nofun)))))

private theorem takes_checkLiteral : Takes checkLiteral fun _ ts => ts = [] := by
  have hlast : Sees (check (kw .kFalse)) fun _ _ => True :=
    fun c found c' h => ⟨(sees_check _ c found c' h).1, fun _ _ _ => trivial⟩
  unfold checkLiteral
  exact (sees_orElse (fun _ _ => trivial) (sees_orElse (fun _ _ => trivial)
    (sees_orElse (fun _ _ => trivial) (sees_orElse (fun _ _ => trivial) hlast)))).takes

private theorem takes_literal : Takes literal fun _ => Derives .atom := by
  unfold literal
  apply takes_next.bind
  rintro t _ rfl
  cases t.kind with
  | integer v => exact takes_pure (.integer v)
  | text s => exact takes_pure (.text s)
  | char c => exact takes_pure (.char c)
  | keyword k =>
    cases k with
    | kTrue => exact takes_pure .boolTrue
    | kFalse => exact takes_pure .boolFalse
    | _ => exact takes_failUnexpected
  | symbol | ident | comment | invalid | eof => exact takes_failUnexpected

def AtomRead (e : Expr) (ts : List TokenKind) : Prop :=
  Derives .atom ts ∧ ∀ info name, e = .ident info name → Named ts

theorem AtomRead.climbed {e : Expr} {ts : List TokenKind} (h : AtomRead e ts) (least : Nat) :
    Climbed least e ts :=
  ⟨ts, [], by simp [operands], h.1, by simp, assignable_of_arith (by simp), by simp,
    fun info name he => ⟨rfl, h.2 info name he⟩⟩

def Lists (category : Category) (ts : List TokenKind) : Prop :=
  ∃ parts, ts = listed parts ∧ ∀ part ∈ parts, Derives category part

theorem Follows.lists {category : Category} {first ts : List TokenKind}
    (hfirst : Derives category first) (h : Follows category ts) : Lists category (first ++ ts) := by
  obtain ⟨parts, rfl, hparts⟩ := h
  exact ⟨first :: parts, rfl, List.forall_mem_cons.mpr ⟨hfirst, hparts⟩⟩

structure ExprsTake (fuel : Nat) : Prop where
  climb : ∀ least, Takes (climb fuel least) (Climbed least)
  climbRest : ∀ least left ts, Climbed least left ts →
    Takes (climbRest fuel least left) fun e us => Climbed least e (ts ++ us)
  atom : Takes (atom fuel) AtomRead
  exprs : ∀ close, Takes (exprs fuel close) fun _ => Lists .expr
  moreExprs : Takes (moreExprs fuel) fun _ => Follows .expr
  inits : ∀ close, Takes (inits fuel close) fun _ ts =>
    ∃ parts : List (String × List TokenKind), ts = listed (parts.map initKinds) ∧
      ∀ part ∈ parts, Derives .expr part.2
  moreInits : Takes (moreInits fuel) fun found =>
    FollowsNamed initKinds .expr (found.map Prod.fst)
  init : Takes (init fuel) fun found ts =>
    ∃ value, ts = initKinds (found.1, value) ∧ Derives .expr value

section Exprs

variable {fuel : Nat} (h : ExprsTake fuel)

include h

private theorem takes_climb (least : Nat) : Takes (climb (fuel + 1) least) (Climbed least) := by
  unfold climb
  apply h.atom.bind
  intro left ts hleft
  exact h.climbRest least left ts (hleft.climbed least)

private theorem takes_climbRest (least : Nat) (left : Expr) (ts : List TokenKind)
    (hleft : Climbed least left ts) :
    Takes (climbRest (fuel + 1) least left) fun e us => Climbed least e (ts ++ us) := by
  intro c e c' hrun
  unfold climbRest at hrun
  obtain ⟨op, c₁, hop, hrun⟩ := bind_eq_ok hrun
  have hstay := (sees_peekOperator c op c₁ hop).1
  have hreturn : ∀ {e'}, (pure left : Parse Expr) c₁ = .ok e' c' →
      ∃ us, c.kinds = us ++ c'.kinds ∧ Climbed least e' (ts ++ us) := by
    intro e' hpure
    cases hpure
    exact ⟨[], hstay.symm, by rwa [List.append_nil]⟩
  cases op with
  | none => exact hreturn hrun
  | some op =>
    dsimp only at hrun
    split at hrun
    · exact hreturn hrun
    rename_i hleast
    obtain ⟨t, c₂, hnext, hrun⟩ := bind_eq_ok hrun
    obtain ⟨hkinds, hkind⟩ := sees_peekOperator.next hop hnext
    -- the operator and its right operand make a longer left operand
    have hwhole : Takes (do
          let right ← climb fuel op.rightPrecedence
          let whole ← combine op t.pos left right
          climbRest fuel least whole)
        fun e us => Climbed least e (ts ++ op.kind :: us) := by
      apply (h.climb op.rightPrecedence).bind
      intro right us hright
      have hcombine : Takes (combine op t.pos left right) fun whole vs =>
          vs = [] ∧ Climbed least whole (ts ++ op.kind :: us) := by
        unfold combine
        cases op with
        | arith op => exact takes_pure ⟨rfl, hleft.arith hright (by simp)⟩
        | assign =>
          obtain rfl : least = 0 := by
            simpa [Operator.precedence] using hleast
          cases left with
          | ident info name => exact takes_pure ⟨rfl, hleft.assign hright (by simp)⟩
          | _ => exact takes_throw _
      apply hcombine.bind
      rintro whole _ ⟨rfl, hclimbed⟩
      apply (h.climbRest least whole _ hclimbed).mono
      intro e vs hvs
      simpa using hvs
    obtain ⟨us, hus, hclimbed⟩ := hwhole c₂ e c' hrun
    exact ⟨op.kind :: us, by rw [hkinds, hkind op rfl, hus]; rfl, hclimbed⟩

private theorem takes_atom : Takes (atom (fuel + 1)) AtomRead := by
  unfold atom
  apply takes_peek.skip
  intro start
  apply takes_checkLiteral.skip
  intro isLiteral
  split
  · apply takes_literal.bind
    intro value ts hts
    exact takes_pure ⟨by rwa [List.append_nil], by simp⟩
  apply (takes_check _).skip
  intro paren
  split
  · apply (takes_symbol _).bind
    rintro _ _ rfl
    apply (takes_symbol? _).bind
    rintro closed _ rfl
    cases closed with
    | some _ => exact takes_pure ⟨.paren [] (by simp), by simp⟩
    | none =>
      apply (h.climb 0).bind
      intro first ts hfirst
      apply (takes_symbol? _).bind
      rintro closed _ rfl
      cases closed with
      | some _ =>
        refine takes_pure ⟨?_, fun info name hname => ?_⟩
        · have hparen := Derives.paren [ts] (by simpa using hfirst.expr)
          simpa [listed, following] using hparen
        · -- parentheses around a name leave it a name
          obtain ⟨atom, more, rfl, -, -, -, -, hnamed⟩ := hfirst
          obtain ⟨rfl, hatom⟩ := hnamed info name hname
          simpa [operands] using hatom.paren
      | none =>
        apply h.moreExprs.bind
        intro _ rest hrest
        apply (takes_symbol _).bind
        rintro _ _ rfl
        obtain ⟨parts, hparts, hexprs⟩ := hrest.lists hfirst.expr
        have hparen := Derives.paren parts hexprs
        rw [← hparts] at hparen
        exact takes_pure ⟨by simpa using hparen, by simp⟩
  apply (takes_check _).skip
  intro bracket
  split
  · apply (takes_symbol _).bind
    rintro _ _ rfl
    apply (h.exprs _).bind
    rintro _ _ ⟨parts, rfl, hparts⟩
    apply (takes_symbol _).bind
    rintro _ _ rfl
    exact takes_pure ⟨.array parts hparts, by simp⟩
  apply (takes_check _).skip
  intro isDefault
  split
  · apply (takes_keyword _).bind
    rintro _ _ rfl
    apply (takes_symbol _).bind
    rintro _ _ rfl
    apply (typesTake fuel).type.bind
    intro _ type htype
    apply (takes_symbol _).bind
    rintro _ _ rfl
    exact takes_pure ⟨.default htype, by simp⟩
  apply (takes_check _).skip
  intro isName
  split
  · apply takes_ident.bind
    rintro ⟨name, pos⟩ _ rfl
    apply (takes_check _).skip
    intro called
    split
    · apply (takes_symbol _).bind
      rintro _ _ rfl
      apply (h.exprs _).bind
      rintro _ _ ⟨args, rfl, hargs⟩
      apply (takes_symbol _).bind
      rintro _ _ rfl
      exact takes_pure ⟨.call name args hargs, by simp⟩
    apply (takes_check _).skip
    intro initialised
    split
    · apply (takes_symbol _).bind
      rintro _ _ rfl
      apply (h.inits _).bind
      rintro _ _ ⟨inits, rfl, hinits⟩
      apply (takes_symbol _).bind
      rintro _ _ rfl
      exact takes_pure ⟨.object name inits hinits, by simp⟩
    · exact takes_pure ⟨.ident name, fun _ _ _ => .ident name⟩
  · exact takes_failUnexpected

private theorem takes_exprs (close : Tag) :
    Takes (exprs (fuel + 1) close) fun _ => Lists .expr := by
  unfold exprs
  apply (takes_check close).skip
  intro closed
  split
  · exact takes_pure ⟨[], rfl, by simp⟩
  apply (h.climb 0).bind
  intro _ first hfirst
  apply h.moreExprs.bind
  intro _ more hmore
  exact takes_pure (by simpa using hmore.lists hfirst.expr)

private theorem takes_moreExprs : Takes (moreExprs (fuel + 1)) fun _ => Follows .expr := by
  unfold moreExprs
  apply (takes_symbol? _).bind
  rintro comma _ rfl
  cases comma with
  | none => exact takes_pure (follows_nil _)
  | some _ =>
    apply (h.climb 0).bind
    intro _ part hpart
    apply h.moreExprs.bind
    intro _ rest hrest
    exact takes_pure (by simpa using hrest.cons hpart.expr)

private theorem takes_inits (close : Tag) : Takes (inits (fuel + 1) close) fun _ ts =>
    ∃ parts : List (String × List TokenKind), ts = listed (parts.map initKinds) ∧
      ∀ part ∈ parts, Derives .expr part.2 := by
  unfold inits
  apply (takes_check close).skip
  intro closed
  split
  · exact takes_pure ⟨[], rfl, by simp⟩
  apply h.init.bind
  rintro first _ ⟨value, rfl, hvalue⟩
  apply h.moreInits.bind
  rintro more _ ⟨parts, -, rfl, hparts⟩
  refine takes_pure ⟨(first.1, value) :: parts, by simp [listed], ?_⟩
  exact List.forall_mem_cons.mpr ⟨hvalue, hparts⟩

private theorem takes_moreInits : Takes (moreInits (fuel + 1)) fun found =>
    FollowsNamed initKinds .expr (found.map Prod.fst) := by
  unfold moreInits
  apply (takes_symbol? _).bind
  rintro comma _ rfl
  cases comma with
  | none => exact takes_pure followsNamed_nil
  | some _ =>
    apply h.init.bind
    rintro first _ ⟨value, rfl, hvalue⟩
    apply h.moreInits.bind
    intro more rest hrest
    exact takes_pure (by simpa using hrest.cons first.1 hvalue)

private theorem takes_init : Takes (init (fuel + 1)) fun found ts =>
    ∃ value, ts = initKinds (found.1, value) ∧ Derives .expr value := by
  unfold init
  apply takes_ident.bind
  rintro ⟨name, pos⟩ _ rfl
  apply (takes_symbol _).bind
  rintro _ _ rfl
  apply (h.climb 0).bind
  intro _ value hvalue
  exact takes_pure ⟨value, by simp [initKinds], hvalue.expr⟩

end Exprs

theorem exprsTake (fuel : Nat) : ExprsTake fuel := by
  induction fuel with
  | zero =>
    exact ⟨fun _ => takes_throw _, fun _ _ _ _ => takes_throw _, takes_throw _,
      fun _ => takes_throw _, takes_throw _, fun _ => takes_throw _, takes_throw _, takes_throw _⟩
  | succ fuel ih =>
    exact ⟨takes_climb ih, takes_climbRest ih, takes_atom ih, takes_exprs ih, takes_moreExprs ih,
      takes_inits ih, takes_moreInits ih, takes_init ih⟩

theorem takes_expr (fuel : Nat) : Takes (expr fuel) fun _ => Derives .expr :=
  ((exprsTake fuel).climb 0).mono fun _ _ h => h.expr

theorem takes_optional {α : Type} {p : Parse α} {R : List TokenKind → Prop} {s : Symbol}
    (hp : Takes p fun _ => R) : Takes (optional (sym s) p) fun found ts =>
      found.elim (ts = []) fun _ => ∃ us, ts = .symbol s :: us ∧ R us := by
  unfold optional
  apply (takes_check _).skip
  intro found
  split
  · apply (takes_symbol _).bind
    rintro _ _ rfl
    apply hp.bind
    intro a us hus
    exact takes_pure ⟨us, by simp, hus⟩
  · exact takes_pure rfl

structure StmtsTake (fuel : Nat) : Prop where
  stmt : Takes (stmt fuel) fun _ => Derives .stmt
  block : Takes (block fuel) fun _ => Derives .block
  stmts : Takes (stmts fuel) fun _ ts =>
    ∃ parts : List (List TokenKind), ts = parts.flatten ∧ ∀ part ∈ parts, Derives .stmt part

section Stmts

variable {fuel : Nat} (h : StmtsTake fuel)

include h

private theorem takes_stmt : Takes (stmt (fuel + 1)) fun _ => Derives .stmt := by
  unfold stmt
  apply takes_peek.skip
  intro start
  apply (takes_check _).skip
  intro isLet
  split
  · apply (takes_keyword _).bind
    rintro _ _ rfl
    apply takes_ident.bind
    rintro ⟨name, pos⟩ _ rfl
    apply (takes_optional (typesTake fuel).type).bind
    intro typed ts hts
    cases typed with
    | some t =>
      obtain ⟨type, rfl, htype⟩ := hts
      apply (takes_optional (takes_expr fuel)).bind
      intro value us hus
      apply (takes_symbol _).bind
      rintro _ _ rfl
      cases value with
      | none =>
        cases hus
        exact takes_pure (.declare name htype)
      | some e =>
        obtain ⟨init, rfl, hinit⟩ := hus
        exact takes_pure (by simpa using Derives.declareInit name htype hinit)
    | none =>
      cases hts
      apply (takes_symbol _).bind
      rintro _ _ rfl
      apply (takes_expr fuel).bind
      intro e init hinit
      apply (takes_symbol _).bind
      rintro _ _ rfl
      exact takes_pure (.init name hinit)
  apply (takes_check _).skip
  intro isIf
  split
  · apply (takes_keyword _).bind
    rintro _ _ rfl
    apply (takes_symbol _).bind
    rintro _ _ rfl
    apply (takes_expr fuel).bind
    intro _ test htest
    apply (takes_symbol _).bind
    rintro _ _ rfl
    apply h.stmt.bind
    intro _ yes hyes
    apply (takes_check _).skip
    intro isElse
    split
    · apply (takes_keyword _).bind
      rintro _ _ rfl
      apply h.stmt.bind
      intro _ no hno
      exact takes_pure (by simpa using Derives.condElse htest hyes hno)
    · exact takes_pure (by simpa using Derives.cond htest hyes)
  apply (takes_check _).skip
  intro isWhile
  split
  · apply (takes_keyword _).bind
    rintro _ _ rfl
    apply (takes_symbol _).bind
    rintro _ _ rfl
    apply (takes_expr fuel).bind
    intro _ test htest
    apply (takes_symbol _).bind
    rintro _ _ rfl
    apply h.stmt.bind
    intro _ body hbody
    exact takes_pure (by simpa using Derives.loop htest hbody)
  apply (takes_check _).skip
  intro isBlock
  split
  · exact h.block.mono fun _ _ hbody => .blockStmt hbody
  apply (takes_check _).skip
  intro isReturn
  split
  · apply (takes_keyword _).bind
    rintro _ _ rfl
    apply (takes_check _).skip
    intro ends
    split
    · apply (takes_symbol _).bind
      rintro _ _ rfl
      exact takes_pure .ret
    apply (takes_expr fuel).bind
    intro _ value hvalue
    apply (takes_symbol _).bind
    rintro _ _ rfl
    exact takes_pure (.retValue hvalue)
  · apply (takes_expr fuel).bind
    intro _ e he
    apply (takes_symbol _).bind
    rintro _ _ rfl
    exact takes_pure (.exprStmt he)

private theorem takes_block : Takes (block (fuel + 1)) fun _ => Derives .block := by
  unfold block
  apply (takes_symbol _).bind
  rintro _ _ rfl
  apply h.stmts.bind
  rintro _ _ ⟨parts, rfl, hparts⟩
  apply (takes_symbol _).bind
  rintro _ _ rfl
  exact takes_pure (.block parts hparts)

private theorem takes_stmts : Takes (stmts (fuel + 1)) fun _ ts =>
    ∃ parts : List (List TokenKind), ts = parts.flatten ∧ ∀ part ∈ parts, Derives .stmt part := by
  unfold stmts
  apply (takes_check _).skip
  intro closed
  split
  · exact takes_pure ⟨[], rfl, by simp⟩
  apply h.stmt.bind
  intro _ first hfirst
  apply h.stmts.bind
  rintro _ _ ⟨parts, rfl, hparts⟩
  exact takes_pure ⟨first :: parts, by simp, List.forall_mem_cons.mpr ⟨hfirst, hparts⟩⟩

end Stmts

theorem stmtsTake (fuel : Nat) : StmtsTake fuel := by
  induction fuel with
  | zero => exact ⟨takes_throw _, takes_throw _, takes_throw _⟩
  | succ fuel ih => exact ⟨takes_stmt ih, takes_block ih, takes_stmts ih⟩

theorem takes_definition (fuel : Nat) : Takes (definition fuel) fun _ => Derives .definition := by
  unfold definition
  apply (takes_keyword _).bind
  rintro start _ rfl
  apply (takes_keyword? _).bind
  rintro isObject _ rfl
  cases isObject with
  | some _ =>
    apply takes_ident.bind
    rintro ⟨name, pos⟩ _ rfl
    apply (takes_symbol _).bind
    rintro _ _ rfl
    apply (takes_items fuel _).bind
    rintro fields _ ⟨parts, hnames, rfl, hparts⟩
    apply (takes_symbol _).bind
    rintro _ _ rfl
    apply (takes_distinct _).bind
    rintro _ _ ⟨rfl, hdistinct⟩
    rw [← hnames] at hdistinct
    exact takes_pure (by simpa using Derives.objectDef name parts hparts hdistinct)
  | none =>
    apply (takes_keyword? _).bind
    rintro isFunc _ rfl
    cases isFunc with
    | none => exact takes_failUnexpected
    | some _ =>
      apply takes_ident.bind
      rintro ⟨name, pos⟩ _ rfl
      apply (takes_symbol _).bind
      rintro _ _ rfl
      apply (takes_items fuel _).bind
      rintro params _ ⟨parts, hnames, rfl, hparts⟩
      apply (takes_symbol _).bind
      rintro _ _ rfl
      apply (takes_distinct _).bind
      rintro _ _ ⟨rfl, hdistinct⟩
      rw [← hnames] at hdistinct
      apply (takes_optional (typesTake fuel).type).bind
      intro ret ts hts
      apply (stmtsTake fuel).block.bind
      intro _ body hbody
      cases ret with
      | none =>
        cases hts
        exact takes_pure (by simpa using Derives.funcDef name parts hparts hdistinct hbody)
      | some t =>
        obtain ⟨type, rfl, htype⟩ := hts
        exact takes_pure
          (by simpa using Derives.funcDefType name parts hparts hdistinct htype hbody)

theorem takes_parts (fuel : Nat) : Takes (parts fuel) fun _ ts =>
    ∃ parts : List (List TokenKind), ts = parts.flatten ∧ ∀ part ∈ parts, Derives .part part := by
  induction fuel with
  | zero => exact takes_throw _
  | succ fuel ih =>
    unfold parts
    apply (takes_check _).skip
    intro ends
    split
    · exact takes_pure ⟨[], rfl, by simp⟩
    apply (takes_check _).skip
    intro isDef
    split
    · apply (takes_definition fuel).bind
      intro _ first hfirst
      apply ih.bind
      rintro ⟨defs, stmts⟩ _ ⟨parts, rfl, hparts⟩
      exact takes_pure
        ⟨first :: parts, by simp, List.forall_mem_cons.mpr ⟨.defPart hfirst, hparts⟩⟩
    · apply (stmtsTake fuel).stmt.bind
      intro _ first hfirst
      apply ih.bind
      rintro ⟨defs, stmts⟩ _ ⟨parts, rfl, hparts⟩
      exact takes_pure
        ⟨first :: parts, by simp, List.forall_mem_cons.mpr ⟨.stmtPart hfirst, hparts⟩⟩

theorem takes_module (fuel : Nat) (name : String) :
    Takes (module fuel name) fun _ => Derives .module := by
  unfold module
  apply (takes_parts fuel).bind
  rintro ⟨defs, stmts⟩ _ ⟨parts, rfl, hparts⟩
  apply (takes_expect _).bind
  rintro t _ ⟨rfl, htag⟩
  rw [Token.tag_eq_eof_iff.mp htag]
  exact takes_pure (.module parts hparts)

end Grammar
end EdeLang
