import EdeLang.Proofs.Syntax.Phrases

/-!
# Looking ahead

The rules of the grammar ask for tags of the next token before they take it. Whatever the stream, a
token that was asked for and found is taken before reading stops, also where an operator is declined
by a rule that reads operands of a higher precedence; and the end is taken by nothing but the last
rule. So reading a stream never goes past its end, and stops in front of a token that was not asked
for.
-/

namespace EdeLang

def Diagnostic.isUnexpected (d : Diagnostic) : Bool :=
  match d.error with
  | .parse (.unexpectedToken _ _) => true
  | _ => false

theorem EndsOnce.suffix {tokens rest : List Token} (h : EndsOnce tokens) (hrest : rest <:+ tokens)
    (hne : rest ≠ []) : EndsOnce rest := by
  obtain ⟨before, last, rfl, hlast, hbefore⟩ := h
  rcases List.eq_nil_or_concat rest with rfl | ⟨init, end', rfl⟩
  · exact absurd rfl hne
  · rw [List.concat_eq_append] at hrest ⊢
    obtain ⟨earlier, heq⟩ := hrest
    rw [← List.append_assoc] at heq
    obtain ⟨rfl, hend⟩ := List.append_inj' heq rfl
    cases hend
    exact ⟨init, last, rfl, hlast, fun t ht => hbefore t (List.mem_append_right _ ht)⟩

theorem EndsOnce.ne_nil {tokens : List Token} (h : EndsOnce tokens) : tokens ≠ [] := by
  obtain ⟨before, last, rfl, -, -⟩ := h
  simp

namespace Cursor

variable {c : Cursor} {t : Token} {rest : List Token}

/-- The cursor past the comments in front of it, with one more tag asked for. -/
def asked (c : Cursor) (tag : Tag) : Cursor := ⟨c.skip.tokens, tag :: c.expected⟩

def taken (c : Cursor) : Cursor := ⟨c.skip.tokens.tail, []⟩

theorem plain_asked (c : Cursor) (tag : Tag) : (c.asked tag).plain = c.plain := c.plain_skip

theorem plain_taken (h : c.plain = t :: rest) : c.taken.plain = rest := by
  obtain ⟨more, hmore, hrest⟩ := skip_tokens_of_plain h
  show plainTokens c.skip.tokens.tail = rest
  rw [hmore, List.tail_cons, hrest]

theorem peek_of_plain (h : c.plain = t :: rest) : peek c = .ok t c.skip := by
  obtain ⟨more, hmore, -⟩ := skip_tokens_of_plain h
  rw [peek, hmore]

theorem check_of_plain (h : c.plain = t :: rest) (tag : Tag) :
    check tag c = .ok (t.tag == tag) (c.asked tag) := by
  have hask : ask tag c = .ok () ⟨c.tokens, tag :: c.expected⟩ := rfl
  have hpeek : peek ⟨c.tokens, tag :: c.expected⟩ = .ok t (c.asked tag) := peek_of_plain h
  unfold check
  rw [Parse.bind_of_ok hask, Parse.bind_of_ok hpeek]
  rfl

theorem next_of_plain (h : c.plain = t :: rest) : next c = .ok t c.taken := by
  obtain ⟨more, hmore, -⟩ := skip_tokens_of_plain h
  rw [next, taken, hmore]
  rfl

theorem failUnexpected_of_plain {α : Type} (h : c.plain = t :: rest) :
    (failUnexpected : Parse α) c = .error
      (.diagnostic ((ParseError.unexpectedToken t.kind c.expectedTags).at t.pos)) c.skip := by
  have hunexpected : unexpected c =
      .ok ((ParseError.unexpectedToken t.kind c.expectedTags).at t.pos) c.skip := by
    unfold unexpected
    rw [Parse.bind_of_ok (peek_of_plain h)]
    rfl
  unfold failUnexpected
  rw [Parse.bind_of_ok hunexpected]
  rfl

theorem exists_plain (h : EndsOnce c.tokens) : ∃ t rest, c.plain = t :: rest :=
  List.exists_cons_of_ne_nil h.plain.ne_nil

theorem skip_tokens_ne_nil (h : EndsOnce c.tokens) : c.skip.tokens ≠ [] := by
  obtain ⟨t, rest, hplain⟩ := exists_plain h
  obtain ⟨more, hmore, -⟩ := skip_tokens_of_plain hplain
  simp [hmore]

theorem endsOnce_skip (h : EndsOnce c.tokens) : EndsOnce c.skip.tokens :=
  h.suffix (List.dropWhile_suffix _) (skip_tokens_ne_nil h)

theorem endsOnce_taken (h : EndsOnce c.tokens) (hplain : c.plain = t :: rest)
    (ht : t.tag ≠ .eof) : EndsOnce c.taken.tokens := by
  obtain ⟨more, hmore, -⟩ := skip_tokens_of_plain hplain
  have hskip := endsOnce_skip h
  show EndsOnce c.skip.tokens.tail
  rw [hmore] at hskip ⊢
  apply hskip.suffix (List.suffix_cons t more)
  rintro rfl
  obtain ⟨before, last, heq, hlast, -⟩ := hskip
  obtain ⟨rfl, rfl⟩ : before = [] ∧ t = last := by
    cases before with
    | nil => simpa using heq
    | cons u before => simp at heq
  exact ht (Token.tag_eq_eof_iff.mpr hlast)

theorem taken_tokens_of_eof (h : EndsOnce c.tokens) (hplain : c.plain = t :: rest)
    (ht : t.tag = .eof) : c.taken.tokens = [] := by
  obtain ⟨more, hmore, -⟩ := skip_tokens_of_plain hplain
  obtain ⟨before, last, heq, -, hbefore⟩ := endsOnce_skip h
  show c.skip.tokens.tail = []
  rw [hmore] at heq ⊢
  cases before with
  | nil =>
    cases heq
    rfl
  | cons u before =>
    cases heq
    exact absurd (Token.tag_eq_eof_iff.mp ht) (hbefore t (by simp))

/-- The streams are the lists of tokens that end in their only end. -/
theorem ofTokens_eq_ok_iff {tokens : List Token} :
    ofTokens tokens = .ok c ↔ EndsOnce tokens ∧ c = ⟨tokens, []⟩ := by
  constructor
  · intro h
    unfold ofTokens at h
    split at h
    · cases h
    · next hlast =>
      split at h
      · cases h
      · next hcount =>
        cases h
        obtain ⟨last, hlast, htag⟩ := Option.map_eq_some_iff.mp (not_not.mp hlast)
        obtain ⟨before, rfl⟩ := List.getLast?_eq_some_iff.mp hlast
        have hbefore : before.filter (fun t => t.tag == .eof) = [] := by
          simpa [List.filter_append, htag] using hcount
        refine ⟨⟨before, last, rfl, Token.tag_eq_eof_iff.mp htag, fun t ht heof => ?_⟩, rfl⟩
        have hother := List.filter_eq_nil_iff.mp hbefore t ht
        exact hother (beq_iff_eq.mpr (Token.tag_eq_eof_iff.mpr heof))
  · rintro ⟨h, rfl⟩
    exact ofTokens_of_endsOnce h

/-- The tokens are a stream, and the next of them was asked for only if it has one of these tags. -/
structure Owes (P : Tag → Prop) (c : Cursor) : Prop where
  endsOnce : EndsOnce c.tokens
  owed : ∀ t rest, c.plain = t :: rest → t.tag ∈ c.expected → P t.tag

/-- The tokens are a stream, and the next of them was not asked for. -/
abbrev Clear : Cursor → Prop := Owes fun _ => False

/-- The tokens are a stream, and the next of them has this tag. -/
structure Faces (tag : Tag) (c : Cursor) : Prop where
  endsOnce : EndsOnce c.tokens
  faced : ∀ t rest, c.plain = t :: rest → t.tag = tag

structure Ongoing (c : Cursor) : Prop where
  endsOnce : EndsOnce c.tokens
  ongoing : ∀ t rest, c.plain = t :: rest → t.tag ≠ .eof

theorem Owes.mono {P Q : Tag → Prop} (h : c.Owes P) (hPQ : ∀ tag, P tag → Q tag) : c.Owes Q :=
  ⟨h.endsOnce, fun t rest hplain ht => hPQ _ (h.owed t rest hplain ht)⟩

theorem clear_start {tokens : List Token} (h : EndsOnce tokens) : Clear ⟨tokens, []⟩ :=
  ⟨h, fun _ _ _ hasked => by cases hasked⟩

theorem Clear.owes {P : Tag → Prop} (h : c.Clear) : c.Owes P := h.mono fun _ => False.elim

theorem Faces.owes {tag : Tag} {P : Tag → Prop} (h : c.Faces tag) (htag : P tag) : c.Owes P :=
  ⟨h.endsOnce, fun t rest hplain _ => h.faced t rest hplain ▸ htag⟩

theorem Faces.ongoing {tag : Tag} (h : c.Faces tag) (htag : tag ≠ .eof) : c.Ongoing :=
  ⟨h.endsOnce, fun t rest hplain => h.faced t rest hplain ▸ htag⟩

/-- A diagnostic about an unexpected token is about the next one and the tags asked for. -/
def Explains (c : Cursor) (d : Diagnostic) : Prop :=
  d.isUnexpected = true → ∃ t rest, c.plain = t :: rest ∧
    d = (ParseError.unexpectedToken t.kind c.expectedTags).at t.pos

end Cursor

namespace Parse

open Cursor

variable {α β : Type} {P P' : Cursor → Prop} {p : Parse α} {f : α → Parse β}
  {Q : α → Cursor → Prop} {R : β → Cursor → Prop}

/-- What a parser leaves is as promised; where it stops with a diagnostic, the next token was not
asked for. -/
def Kept (Q : α → Cursor → Prop) : EStateM.Result Stop Cursor α → Prop
  | .ok a c => Q a c
  | .error (.diagnostic d) c => c.Clear ∧ c.Explains d
  | .error _ _ => True

/-- From cursors as they are needed, the parser leaves such as are promised. -/
def Keeps (P : Cursor → Prop) (p : Parse α) (Q : α → Cursor → Prop) : Prop :=
  ∀ c, P c → Kept Q (p c)

theorem Kept.error {stop : Stop} {c : Cursor} (h : Kept Q (.error stop c)) :
    Kept R (.error stop c) := by
  cases stop with
  | diagnostic d => exact h
  | stream e => trivial
  | pastEnd => trivial

theorem Keeps.bind (hp : Keeps P p Q) (hf : ∀ a, Keeps (Q a) (f a) R) : Keeps P (p >>= f) R := by
  intro c hc
  have hkept := hp c hc
  cases hpc : p c with
  | ok a c' =>
    rw [hpc] at hkept
    rw [bind_of_ok hpc]
    exact hf a c' hkept
  | error stop c' =>
    rw [hpc] at hkept
    rw [bind_of_error hpc]
    exact hkept.error

theorem Keeps.pre (h : Keeps P p Q) (hpre : ∀ c, P' c → P c) : Keeps P' p Q :=
  fun c hc => h c (hpre c hc)

theorem Keeps.post {Q' : α → Cursor → Prop} (h : Keeps P p Q) (hpost : ∀ a c, Q a c → Q' a c) :
    Keeps P p Q' := by
  intro c hc
  have hkept := h c hc
  cases hpc : p c with
  | ok a c' =>
    rw [hpc] at hkept
    exact hpost a c' hkept
  | error stop c' =>
    rw [hpc] at hkept
    exact hkept.error

theorem keeps_pure {a : α} (h : ∀ c, P c → Q a c) : Keeps P (pure a : Parse α) Q := h

/-- Out of fuel there is nothing to keep. -/
theorem keeps_pastEnd : Keeps P (throw .pastEnd : Parse α) Q := fun _ _ => trivial

theorem keeps_fail {d : Diagnostic} (hd : d.isUnexpected = false) :
    Keeps Clear (fail d : Parse α) Q :=
  fun _ hc => ⟨hc, fun hunexpected => by simp [hd] at hunexpected⟩

theorem keeps_failUnexpected : Keeps Clear (failUnexpected : Parse α) Q := by
  intro c hc
  obtain ⟨t, rest, hplain⟩ := exists_plain hc.endsOnce
  rw [failUnexpected_of_plain hplain]
  have hskip := c.plain_skip
  refine ⟨⟨endsOnce_skip hc.endsOnce, fun u us hu => ?_⟩,
    fun _ => ⟨t, rest, hskip.trans hplain, rfl⟩⟩
  exact hc.owed u us (hskip.symm.trans hu)

theorem keeps_peek {P : Tag → Prop} : Keeps (Owes P) peek fun _ => Owes P := by
  intro c hc
  obtain ⟨t, rest, hplain⟩ := exists_plain hc.endsOnce
  rw [peek_of_plain hplain]
  exact ⟨endsOnce_skip hc.endsOnce, fun u us hu => hc.owed u us (c.plain_skip.symm.trans hu)⟩

/-- Asking for a tag tells whether the next token has it. -/
theorem keeps_check {P : Tag → Prop} (tag : Tag) : Keeps (Owes P) (check tag) fun found c =>
    cond found (c.Faces tag) (c.Owes fun u => P u ∧ u ≠ tag) := by
  intro c hc
  obtain ⟨t, rest, hplain⟩ := exists_plain hc.endsOnce
  rw [check_of_plain hplain tag]
  have hstream : EndsOnce (c.asked tag).tokens := endsOnce_skip hc.endsOnce
  have hasked : (c.asked tag).plain = t :: rest := (plain_asked c tag).trans hplain
  by_cases htag : t.tag = tag
  · rw [beq_iff_eq.mpr htag]
    refine ⟨hstream, fun u us hu => ?_⟩
    cases hasked.symm.trans hu
    exact htag
  · rw [beq_eq_false_iff_ne.mpr htag]
    refine ⟨hstream, fun u us hu hmem => ?_⟩
    cases hasked.symm.trans hu
    rcases List.mem_cons.mp hmem with heq | hearlier
    · exact absurd heq htag
    · exact ⟨hc.owed t rest hplain hearlier, htag⟩

theorem keeps_ask {P : Tag → Prop} {tag : Tag} {yes no : Parse α}
    (hyes : Keeps (Faces tag) yes Q) (hno : Keeps (Owes fun u => P u ∧ u ≠ tag) no Q) :
    Keeps (Owes P) (do if ← check tag then yes else no) Q := by
  apply (keeps_check tag).bind
  intro found
  cases found with
  | true => exact hyes
  | false => exact hno

/-- What is not found leaves the same tokens owed. -/
theorem keeps_orElse {P : Tag → Prop} {tag : Tag} {yes no : Parse α}
    (hyes : Keeps (Faces tag) yes Q) (hno : Keeps (Owes P) no Q) :
    Keeps (Owes P) (do if ← check tag then yes else no) Q :=
  keeps_ask hyes (hno.pre fun _ h => h.mono fun _ hu => hu.1)

theorem keeps_if {P : Tag → Prop} {tag : Tag} {yes no : Parse α}
    (hyes : Keeps (Owes (· = tag)) yes Q) (hno : Keeps (Owes P) no Q) :
    Keeps (Owes P) (do if ← check tag then yes else no) Q :=
  keeps_orElse (hyes.pre fun _ h => h.owes rfl) hno

theorem keeps_next : Keeps Ongoing next fun _ => Clear := by
  intro c hc
  obtain ⟨t, rest, hplain⟩ := exists_plain hc.endsOnce
  rw [next_of_plain hplain]
  exact ⟨endsOnce_taken hc.endsOnce hplain (hc.ongoing t rest hplain), fun _ _ _ => by
    simp [taken]⟩

theorem keeps_take? {tag : Tag} (htag : tag ≠ .eof) {P : Tag → Prop} (hP : ∀ u, P u → u = tag) :
    Keeps (Owes P) (take? tag) fun _ => Clear := by
  have hnext : Keeps (Faces tag) next fun _ => Clear := keeps_next.pre fun _ h => h.ongoing htag
  apply keeps_ask
  · apply hnext.bind
    intro t
    exact keeps_pure fun _ h => h
  · exact keeps_pure fun _ h => h.mono fun u hu => absurd (hP u hu.1) hu.2

theorem keeps_expect {tag : Tag} (htag : tag ≠ .eof) :
    Keeps (Owes (· = tag)) (expect tag) fun _ => Clear := by
  apply (keeps_take? htag fun _ hu => hu).bind
  intro t
  cases t with
  | none => exact keeps_failUnexpected
  | some t => exact keeps_pure fun _ h => h

end Parse

namespace Grammar

open Cursor Parse

theorem owed_symbol (s : Symbol) : Keeps (Owes (· = sym s)) (expect (sym s)) fun _ => Clear :=
  keeps_expect (by simp)

theorem owed_keyword (k : Keyword) : Keeps (Owes (· = kw k)) (expect (kw k)) fun _ => Clear :=
  keeps_expect (by simp)

theorem keeps_symbol (s : Symbol) : Keeps Clear (expect (sym s)) fun _ => Clear :=
  (owed_symbol s).pre fun _ => Clear.owes

theorem keeps_symbol? (s : Symbol) : Keeps Clear (take? (sym s)) fun _ => Clear :=
  keeps_take? (by simp) (by simp)

theorem keeps_keyword? (k : Keyword) : Keeps Clear (take? (kw k)) fun _ => Clear :=
  keeps_take? (by simp) (by simp)

theorem owed_ident : Keeps (Owes (· = .ident)) ident fun _ => Clear := by
  have hexpect : Keeps (Owes (· = .ident)) (expect .ident) fun _ => Clear :=
    keeps_expect (by simp)
  apply hexpect.bind
  intro t
  split
  · exact keeps_pure fun _ h => h
  · exact keeps_failUnexpected

theorem keeps_ident : Keeps Clear ident fun _ => Clear := owed_ident.pre fun _ => Clear.owes

theorem keeps_distinct (items : List (Item TypeExpr)) :
    Keeps Clear (distinct items) fun _ => Clear := by
  unfold distinct
  split
  · exact keeps_fail rfl
  · exact keeps_pure fun _ h => h

structure TypesKeep (fuel : Nat) : Prop where
  type : Keeps Clear (type fuel) fun _ => Clear
  moreTypes : Keeps Clear (moreTypes fuel) fun _ => Clear
  item : Keeps Clear (item fuel) fun _ => Clear
  moreItems : Keeps Clear (moreItems fuel) fun _ => Clear

section Types

variable {fuel : Nat} (h : TypesKeep fuel)

include h

private theorem keeps_type : Keeps Clear (type (fuel + 1)) fun _ => Clear := by
  unfold type
  apply keeps_peek.bind
  intro start
  apply keeps_if
  · apply owed_ident.bind
    rintro ⟨name, pos⟩
    exact keeps_pure fun _ hclear => hclear
  apply keeps_if
  · apply (owed_symbol _).bind
    intro _
    apply h.type.bind
    intro elem
    apply (keeps_symbol _).bind
    intro _
    exact keeps_pure fun _ hclear => hclear
  apply keeps_if
  · apply (owed_symbol _).bind
    intro _
    apply h.type.bind
    intro first
    apply (keeps_symbol _).bind
    intro _
    apply h.type.bind
    intro second
    apply h.moreTypes.bind
    intro rest
    apply (keeps_symbol _).bind
    intro _
    exact keeps_pure fun _ hclear => hclear
  apply keeps_if
  · apply (owed_symbol _).bind
    intro _
    apply h.item.bind
    intro first
    apply h.moreItems.bind
    intro rest
    apply (keeps_symbol _).bind
    intro _
    apply (keeps_distinct _).bind
    intro _
    exact keeps_pure fun _ hclear => hclear
  · exact keeps_failUnexpected

private theorem keeps_moreTypes : Keeps Clear (moreTypes (fuel + 1)) fun _ => Clear := by
  unfold moreTypes
  apply (keeps_symbol? _).bind
  intro comma
  cases comma with
  | none => exact keeps_pure fun _ hclear => hclear
  | some _ =>
    apply h.type.bind
    intro t
    apply h.moreTypes.bind
    intro rest
    exact keeps_pure fun _ hclear => hclear

private theorem keeps_item : Keeps Clear (item (fuel + 1)) fun _ => Clear := by
  unfold item
  apply keeps_ident.bind
  rintro ⟨name, pos⟩
  apply (keeps_symbol _).bind
  intro _
  apply h.type.bind
  intro t
  exact keeps_pure fun _ hclear => hclear

private theorem keeps_moreItems : Keeps Clear (moreItems (fuel + 1)) fun _ => Clear := by
  unfold moreItems
  apply (keeps_symbol? _).bind
  intro comma
  cases comma with
  | none => exact keeps_pure fun _ hclear => hclear
  | some _ =>
    apply h.item.bind
    intro first
    apply h.moreItems.bind
    intro rest
    exact keeps_pure fun _ hclear => hclear

end Types

theorem typesKeep (fuel : Nat) : TypesKeep fuel := by
  induction fuel with
  | zero => exact ⟨keeps_pastEnd, keeps_pastEnd, keeps_pastEnd, keeps_pastEnd⟩
  | succ fuel ih => exact ⟨keeps_type ih, keeps_moreTypes ih, keeps_item ih, keeps_moreItems ih⟩

theorem keeps_items (fuel : Nat) (close : Tag) :
    Keeps Clear (items fuel close) fun _ => Owes (· = close) := by
  unfold items
  apply keeps_if
  · exact keeps_pure fun _ howes => howes
  apply (typesKeep fuel).item.bind
  intro first
  apply (typesKeep fuel).moreItems.bind
  intro rest
  exact keeps_pure fun _ hclear => hclear.owes

def Operator.tag (op : Operator) : Tag := op.kind.tag

theorem Operator.tag_ne_eof (op : Operator) : op.tag ≠ .eof := by
  cases op with
  | assign => simp [tag, kind, TokenKind.tag]
  | arith op => cases op <;> simp [tag, kind, TokenKind.tag]

/-- The tag of an operator that binds less than this. -/
def Below (least : Nat) (tag : Tag) : Prop := ∃ op : Operator, tag = op.tag ∧ op.precedence < least

theorem not_below_zero {tag : Tag} : ¬ Below 0 tag := fun ⟨_, _, h⟩ => Nat.not_lt_zero _ h

theorem keeps_peekOperator : Keeps (Owes fun u => ∃ op : Operator, u = op.tag) peekOperator
    fun found c => found.elim c.Clear fun op => c.Faces op.tag := by
  have hfound : ∀ op : Operator, Keeps (Faces op.tag) (pure (some op))
      fun found c => found.elim c.Clear fun op => c.Faces op.tag :=
    fun op => keeps_pure fun _ hfaces => hfaces
  unfold peekOperator
  apply keeps_ask (hfound .assign)
  apply keeps_ask (hfound (.arith .add))
  apply keeps_ask (hfound (.arith .sub))
  apply keeps_ask (hfound (.arith .mul))
  apply keeps_ask (hfound (.arith .div))
  apply keeps_pure
  intro c howes
  apply howes.mono
  rintro u ⟨⟨⟨⟨⟨⟨op, rfl⟩, hassign⟩, hadd⟩, hsub⟩, hmul⟩, hdiv⟩
  cases op with
  | assign => exact hassign rfl
  | arith op =>
    cases op with
    | add => exact hadd rfl
    | sub => exact hsub rfl
    | mul => exact hmul rfl
    | div => exact hdiv rfl

theorem keeps_checkLiteral :
    Keeps Clear checkLiteral fun found c => cond found c.Ongoing c.Clear := by
  have hfound : ∀ {tag : Tag}, tag ≠ .eof → Keeps (Faces tag) (pure true)
      fun found c => cond found c.Ongoing c.Clear :=
    fun htag => keeps_pure fun _ hfaces => hfaces.ongoing htag
  have hlast : Keeps Clear (check (kw .kFalse)) fun found c => cond found c.Ongoing c.Clear := by
    apply (keeps_check _).post
    intro found c hfound
    cases found with
    | true => exact Faces.ongoing hfound (by simp)
    | false => exact Owes.mono hfound fun _ hu => hu.1
  unfold checkLiteral
  exact keeps_orElse (hfound (by simp)) (keeps_orElse (hfound (by simp)) (keeps_orElse
    (hfound (by simp)) (keeps_orElse (hfound (by simp)) hlast)))

theorem keeps_literal : Keeps Ongoing literal fun _ => Clear := by
  unfold literal
  apply keeps_next.bind
  intro t
  cases t.kind with
  | integer v => exact keeps_pure fun _ hclear => hclear
  | text s => exact keeps_pure fun _ hclear => hclear
  | char c => exact keeps_pure fun _ hclear => hclear
  | keyword k =>
    cases k with
    | kTrue | kFalse => exact keeps_pure fun _ hclear => hclear
    | _ => exact keeps_failUnexpected
  | symbol | ident | comment | invalid | eof => exact keeps_failUnexpected

theorem keeps_combine (op : Operator) (pos : Pos) (left right : Expr) :
    Keeps (Owes (Below op.rightPrecedence)) (combine op pos left right)
      fun _ => Owes fun u => ∃ op : Operator, u = op.tag := by
  unfold combine
  split
  · exact keeps_pure fun _ howes => howes.mono fun _ ⟨op, hop, _⟩ => ⟨op, hop⟩
  · have hclear : ∀ c : Cursor, c.Owes (Below 0) → c.Clear :=
      fun _ howes => howes.mono fun _ => not_below_zero
    split
    · exact keeps_pure fun c howes => (hclear c howes).owes
    · exact (keeps_fail rfl).pre hclear

structure ExprsKeep (fuel : Nat) : Prop where
  climb : ∀ least, Keeps Clear (climb fuel least) fun _ => Owes (Below least)
  climbRest : ∀ least left, Keeps (Owes fun u => ∃ op : Operator, u = op.tag)
    (climbRest fuel least left) fun _ => Owes (Below least)
  atom : Keeps Clear (atom fuel) fun _ => Clear
  exprs : ∀ close, Keeps Clear (exprs fuel close) fun _ => Owes (· = close)
  moreExprs : Keeps Clear (moreExprs fuel) fun _ => Clear
  inits : ∀ close, Keeps Clear (inits fuel close) fun _ => Owes (· = close)
  moreInits : Keeps Clear (moreInits fuel) fun _ => Clear
  init : Keeps Clear (init fuel) fun _ => Clear

section Exprs

variable {fuel : Nat} (h : ExprsKeep fuel)

include h

private theorem keeps_whole : Keeps Clear (climb fuel 0) fun _ => Clear :=
  (h.climb 0).post fun _ _ howes => howes.mono fun _ => not_below_zero

private theorem keeps_climb (least : Nat) :
    Keeps Clear (climb (fuel + 1) least) fun _ => Owes (Below least) := by
  unfold climb
  apply h.atom.bind
  intro left
  exact (h.climbRest least left).pre fun _ => Clear.owes

private theorem keeps_climbRest (least : Nat) (left : Expr) :
    Keeps (Owes fun u => ∃ op : Operator, u = op.tag) (climbRest (fuel + 1) least left)
      fun _ => Owes (Below least) := by
  unfold climbRest
  apply keeps_peekOperator.bind
  intro op
  cases op with
  | none => exact keeps_pure fun _ hclear => Clear.owes hclear
  | some op =>
    dsimp only
    split
    · next hlow => exact keeps_pure fun _ hfaces => Faces.owes hfaces ⟨op, rfl, hlow⟩
    · have hnext : Keeps (Faces op.tag) next fun _ => Clear :=
        keeps_next.pre fun _ hfaces => hfaces.ongoing op.tag_ne_eof
      apply hnext.bind
      intro t
      apply (h.climb _).bind
      intro right
      apply (keeps_combine op t.pos left right).bind
      intro whole
      exact h.climbRest least whole

private theorem keeps_atom : Keeps Clear (atom (fuel + 1)) fun _ => Clear := by
  have hwhole := keeps_whole h
  unfold atom
  apply keeps_peek.bind
  intro start
  apply keeps_checkLiteral.bind
  intro isLiteral
  cases isLiteral with
  | true =>
    apply keeps_literal.bind
    intro value
    exact keeps_pure fun _ hclear => hclear
  | false =>
  apply keeps_if
  · apply (owed_symbol _).bind
    intro _
    apply (keeps_symbol? _).bind
    intro closed
    cases closed with
    | some _ => exact keeps_pure fun _ hclear => hclear
    | none =>
      apply hwhole.bind
      intro first
      apply (keeps_symbol? _).bind
      intro closed
      cases closed with
      | some _ => exact keeps_pure fun _ hclear => hclear
      | none =>
        apply h.moreExprs.bind
        intro rest
        apply (keeps_symbol _).bind
        intro _
        exact keeps_pure fun _ hclear => hclear
  apply keeps_if
  · apply (owed_symbol _).bind
    intro _
    apply (h.exprs _).bind
    intro elems
    apply (owed_symbol _).bind
    intro _
    exact keeps_pure fun _ hclear => hclear
  apply keeps_if
  · apply (owed_keyword _).bind
    intro _
    apply (keeps_symbol _).bind
    intro _
    apply (typesKeep fuel).type.bind
    intro t
    apply (keeps_symbol _).bind
    intro _
    exact keeps_pure fun _ hclear => hclear
  apply keeps_if
  · apply owed_ident.bind
    rintro ⟨name, pos⟩
    apply keeps_if
    · apply (owed_symbol _).bind
      intro _
      apply (h.exprs _).bind
      intro args
      apply (owed_symbol _).bind
      intro _
      exact keeps_pure fun _ hclear => hclear
    apply keeps_if
    · apply (owed_symbol _).bind
      intro _
      apply (h.inits _).bind
      intro inits
      apply (owed_symbol _).bind
      intro _
      exact keeps_pure fun _ hclear => hclear
    · exact keeps_pure fun _ hclear => hclear
  · exact keeps_failUnexpected

private theorem keeps_exprs (close : Tag) :
    Keeps Clear (exprs (fuel + 1) close) fun _ => Owes (· = close) := by
  unfold exprs
  apply keeps_if
  · exact keeps_pure fun _ howes => howes
  apply (keeps_whole h).bind
  intro first
  apply h.moreExprs.bind
  intro rest
  exact keeps_pure fun _ hclear => hclear.owes

private theorem keeps_moreExprs : Keeps Clear (moreExprs (fuel + 1)) fun _ => Clear := by
  unfold moreExprs
  apply (keeps_symbol? _).bind
  intro comma
  cases comma with
  | none => exact keeps_pure fun _ hclear => hclear
  | some _ =>
    apply (keeps_whole h).bind
    intro e
    apply h.moreExprs.bind
    intro rest
    exact keeps_pure fun _ hclear => hclear

private theorem keeps_inits (close : Tag) :
    Keeps Clear (inits (fuel + 1) close) fun _ => Owes (· = close) := by
  unfold inits
  apply keeps_if
  · exact keeps_pure fun _ howes => howes
  apply h.init.bind
  intro first
  apply h.moreInits.bind
  intro rest
  exact keeps_pure fun _ hclear => hclear.owes

private theorem keeps_moreInits : Keeps Clear (moreInits (fuel + 1)) fun _ => Clear := by
  unfold moreInits
  apply (keeps_symbol? _).bind
  intro comma
  cases comma with
  | none => exact keeps_pure fun _ hclear => hclear
  | some _ =>
    apply h.init.bind
    intro first
    apply h.moreInits.bind
    intro rest
    exact keeps_pure fun _ hclear => hclear

private theorem keeps_init : Keeps Clear (init (fuel + 1)) fun _ => Clear := by
  unfold init
  apply keeps_ident.bind
  rintro ⟨name, pos⟩
  apply (keeps_symbol _).bind
  intro _
  apply (keeps_whole h).bind
  intro e
  exact keeps_pure fun _ hclear => hclear

end Exprs

theorem exprsKeep (fuel : Nat) : ExprsKeep fuel := by
  induction fuel with
  | zero =>
    exact ⟨fun _ => keeps_pastEnd, fun _ _ => keeps_pastEnd, keeps_pastEnd, fun _ => keeps_pastEnd,
      keeps_pastEnd, fun _ => keeps_pastEnd, keeps_pastEnd, keeps_pastEnd⟩
  | succ fuel ih =>
    exact ⟨keeps_climb ih, keeps_climbRest ih, keeps_atom ih, keeps_exprs ih, keeps_moreExprs ih,
      keeps_inits ih, keeps_moreInits ih, keeps_init ih⟩

theorem keeps_expr (fuel : Nat) : Keeps Clear (expr fuel) fun _ => Clear :=
  keeps_whole (exprsKeep fuel)

theorem keeps_optional {α : Type} {p : Parse α} (s : Symbol) (hp : Keeps Clear p fun _ => Clear) :
    Keeps Clear (optional (sym s) p) fun _ => Clear := by
  unfold optional
  apply keeps_if
  · apply (owed_symbol s).bind
    intro _
    apply hp.bind
    intro a
    exact keeps_pure fun _ hclear => hclear
  · exact keeps_pure fun _ hclear => hclear

structure StmtsKeep (fuel : Nat) : Prop where
  stmt : Keeps Clear (stmt fuel) fun _ => Clear
  block : Keeps (Owes (· = sym .lcurly)) (block fuel) fun _ => Clear
  stmts : Keeps Clear (stmts fuel) fun _ => Owes (· = sym .rcurly)

section Stmts

variable {fuel : Nat} (h : StmtsKeep fuel)

include h

private theorem keeps_stmt : Keeps Clear (stmt (fuel + 1)) fun _ => Clear := by
  unfold stmt
  apply keeps_peek.bind
  intro start
  apply keeps_if
  · apply (owed_keyword _).bind
    intro _
    apply keeps_ident.bind
    rintro ⟨name, pos⟩
    apply (keeps_optional .colon (typesKeep fuel).type).bind
    intro t
    cases t with
    | some t =>
      apply (keeps_optional .equal (keeps_expr fuel)).bind
      intro init
      apply (keeps_symbol _).bind
      intro _
      exact keeps_pure fun _ hclear => hclear
    | none =>
      apply (keeps_symbol _).bind
      intro _
      apply (keeps_expr fuel).bind
      intro init
      apply (keeps_symbol _).bind
      intro _
      exact keeps_pure fun _ hclear => hclear
  apply keeps_if
  · apply (owed_keyword _).bind
    intro _
    apply (keeps_symbol _).bind
    intro _
    apply (keeps_expr fuel).bind
    intro test
    apply (keeps_symbol _).bind
    intro _
    apply h.stmt.bind
    intro yes
    apply keeps_if
    · apply (owed_keyword _).bind
      intro _
      apply h.stmt.bind
      intro no
      exact keeps_pure fun _ hclear => hclear
    · exact keeps_pure fun _ hclear => hclear
  apply keeps_if
  · apply (owed_keyword _).bind
    intro _
    apply (keeps_symbol _).bind
    intro _
    apply (keeps_expr fuel).bind
    intro test
    apply (keeps_symbol _).bind
    intro _
    apply h.stmt.bind
    intro body
    exact keeps_pure fun _ hclear => hclear
  apply keeps_if
  · exact h.block
  apply keeps_if
  · apply (owed_keyword _).bind
    intro _
    apply keeps_if
    · apply (owed_symbol _).bind
      intro _
      exact keeps_pure fun _ hclear => hclear
    apply (keeps_expr fuel).bind
    intro e
    apply (keeps_symbol _).bind
    intro _
    exact keeps_pure fun _ hclear => hclear
  · apply (keeps_expr fuel).bind
    intro e
    apply (keeps_symbol _).bind
    intro _
    exact keeps_pure fun _ hclear => hclear

private theorem keeps_block :
    Keeps (Owes (· = sym .lcurly)) (block (fuel + 1)) fun _ => Clear := by
  unfold block
  apply (owed_symbol _).bind
  intro opening
  apply h.stmts.bind
  intro body
  apply (owed_symbol _).bind
  intro _
  exact keeps_pure fun _ hclear => hclear

private theorem keeps_stmts :
    Keeps Clear (stmts (fuel + 1)) fun _ => Owes (· = sym .rcurly) := by
  unfold stmts
  apply keeps_if
  · exact keeps_pure fun _ howes => howes
  apply h.stmt.bind
  intro s
  apply h.stmts.bind
  intro rest
  exact keeps_pure fun _ howes => howes

end Stmts

theorem stmtsKeep (fuel : Nat) : StmtsKeep fuel := by
  induction fuel with
  | zero => exact ⟨keeps_pastEnd, keeps_pastEnd, keeps_pastEnd⟩
  | succ fuel ih => exact ⟨keeps_stmt ih, keeps_block ih, keeps_stmts ih⟩

theorem keeps_definition (fuel : Nat) :
    Keeps (Owes (· = kw .kDef)) (definition fuel) fun _ => Clear := by
  unfold definition
  apply (owed_keyword _).bind
  intro start
  apply (keeps_keyword? _).bind
  intro isObject
  cases isObject with
  | some _ =>
    apply keeps_ident.bind
    rintro ⟨name, pos⟩
    apply (keeps_symbol _).bind
    intro _
    apply (keeps_items fuel _).bind
    intro fields
    apply (owed_symbol _).bind
    intro _
    apply (keeps_distinct _).bind
    intro _
    exact keeps_pure fun _ hclear => hclear
  | none =>
    apply (keeps_keyword? _).bind
    intro isFunc
    cases isFunc with
    | none => exact keeps_failUnexpected
    | some _ =>
      apply keeps_ident.bind
      rintro ⟨name, pos⟩
      apply (keeps_symbol _).bind
      intro _
      apply (keeps_items fuel _).bind
      intro params
      apply (owed_symbol _).bind
      intro _
      apply (keeps_distinct _).bind
      intro _
      apply (keeps_optional .colon (typesKeep fuel).type).bind
      intro ret
      apply ((stmtsKeep fuel).block.pre fun _ => Clear.owes).bind
      intro body
      exact keeps_pure fun _ hclear => hclear

theorem keeps_parts (fuel : Nat) : Keeps Clear (parts fuel) fun _ => Faces .eof := by
  induction fuel with
  | zero => exact keeps_pastEnd
  | succ fuel ih =>
    unfold parts
    apply keeps_orElse
    · exact keeps_pure fun _ hfaces => hfaces
    apply keeps_if
    · apply (keeps_definition fuel).bind
      intro d
      apply ih.bind
      rintro ⟨defs, stmts⟩
      exact keeps_pure fun _ hfaces => hfaces
    · apply (stmtsKeep fuel).stmt.bind
      intro s
      apply ih.bind
      rintro ⟨defs, stmts⟩
      exact keeps_pure fun _ hfaces => hfaces

/-- The last rule takes the end, which is the last token. -/
theorem keeps_end : Keeps (Faces .eof) (expect .eof) fun _ c => c.tokens = [] := by
  intro c hc
  obtain ⟨t, rest, hplain⟩ := exists_plain hc.endsOnce
  have htag := hc.faced t rest hplain
  have hasked : (c.asked .eof).plain = t :: rest := (plain_asked c .eof).trans hplain
  have hcheck := check_of_plain hplain .eof
  rw [beq_iff_eq.mpr htag] at hcheck
  have htaken : take? .eof c = .ok (some t) (c.asked .eof).taken := by
    unfold take?
    rw [bind_of_ok hcheck, if_pos rfl, bind_of_ok (next_of_plain hasked)]
    rfl
  unfold expect
  rw [bind_of_ok htaken]
  exact taken_tokens_of_eof (endsOnce_skip hc.endsOnce) hasked htag

theorem keeps_module (fuel : Nat) (name : String) :
    Keeps Clear (module fuel name) fun _ c => c.tokens = [] := by
  unfold module
  apply (keeps_parts fuel).bind
  rintro ⟨defs, stmts⟩
  apply keeps_end.bind
  intro _
  exact keeps_pure fun _ hdone => hdone

theorem ready_of_clear {c : Cursor} (hc : c.Clear) : Ready c.tokens.length c.plain :=
  ⟨hc.endsOnce.plain, List.length_filter_le _ _⟩

/-- With fuel for all its tokens, reading a stream takes it whole or stops in front of a token that
was not asked for. -/
theorem module_settles {c : Cursor} (hc : c.Clear) {fuel : Nat}
    (hfuel : 3 * c.tokens.length + 3 ≤ fuel) (name : String) :
    (∃ m c', module fuel name c = .ok m c' ∧ c'.tokens = []) ∨
    ∃ d c', module fuel name c = .error (.diagnostic d) c' ∧ c'.Clear ∧ c'.Explains d := by
  have hkept := keeps_module fuel name c hc
  rcases agrees_module hfuel hfuel name c c ⟨rfl, rfl⟩ (ready_of_clear hc) with
    ⟨m, c', -, hread, -, -, -⟩ | ⟨d, c', -, hread, -⟩
  · rw [hread] at hkept
    exact .inl ⟨m, c', hread, hkept⟩
  · rw [hread] at hkept
    exact .inr ⟨d, c', hread, hkept⟩

end Grammar
end EdeLang
