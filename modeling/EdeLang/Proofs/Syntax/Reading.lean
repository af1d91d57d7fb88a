import EdeLang.Proofs.Syntax.Phrases
import Mathlib.Order.Filter.AtTopBot.Basic

/-!
# Reading of types and expressions

From enough fuel on, the rules of the parser for types and expressions read every phrase of their
category and leave what comes after it, unless the next token could go on with the phrase.
-/

namespace EdeLang

open Filter

namespace Parse

variable {α β : Type} {p : Parse α} {f : α → Parse β} {before between after : List TokenKind}
  {Q Q' : α → Prop} {R : β → Prop}

/-- With these tokens in front of it the parser succeeds and leaves those. -/
def Reads (p : Parse α) (before after : List TokenKind) (Q : α → Prop) : Prop :=
  ∀ c : Cursor, c.kinds = before → ∃ a c', p c = .ok a c' ∧ c'.kinds = after ∧ Q a

theorem reads_pure {a : α} (h : Q a) : Reads (pure a) before before Q :=
  fun c hc => ⟨a, c, rfl, hc, h⟩

theorem Reads.bind (hp : Reads p before between Q)
    (hf : ∀ a, Q a → Reads (f a) between after R) : Reads (p >>= f) before after R := by
  intro c hc
  obtain ⟨a, c₁, hpc, hc₁, ha⟩ := hp c hc
  obtain ⟨b, c₂, hfc, hc₂, hb⟩ := hf a ha c₁ hc₁
  exact ⟨b, c₂, (bind_of_ok hpc).trans hfc, hc₂, hb⟩

theorem Reads.mono (hp : Reads p before after Q) (h : ∀ a, Q a → Q' a) :
    Reads p before after Q' := by
  intro c hc
  obtain ⟨a, c', hpc, hc', ha⟩ := hp c hc
  exact ⟨a, c', hpc, hc', h a ha⟩

end Parse

namespace Cursor

open Parse

variable {α : Type} {k : TokenKind} {ks after : List TokenKind} {tag : Tag} {Q : α → Prop}

theorem exists_skip {c : Cursor} (h : c.kinds = k :: ks) :
    ∃ t more, c.skip.tokens = t :: more ∧ t.kind = k ∧ (plainTokens more).map Token.kind = ks := by
  obtain ⟨t, rest, hplain, hkind, hrest⟩ := List.map_eq_cons_iff.mp h
  obtain ⟨more, hskip, hmore⟩ := skip_tokens_of_plain hplain
  exact ⟨t, more, hskip, hkind, by rw [hmore, hrest]⟩

theorem reads_peek : Reads peek (k :: ks) (k :: ks) fun t => t.kind = k := by
  intro c hc
  obtain ⟨t, more, hskip, hkind, -⟩ := exists_skip hc
  exact ⟨t, c.skip, by rw [peek, hskip], by rw [kinds_skip, hc], hkind⟩

theorem reads_next : Reads next (k :: ks) ks fun t => t.kind = k := by
  intro c hc
  obtain ⟨t, more, hskip, hkind, hmore⟩ := exists_skip hc
  exact ⟨t, ⟨more, []⟩, by rw [next, hskip], hmore, hkind⟩

theorem reads_check :
    Reads (check tag) (k :: ks) (k :: ks) fun found => found = (k.tag == tag) := by
  have hask : Reads (ask tag) (k :: ks) (k :: ks) fun _ => True :=
    fun c hc => ⟨(), _, rfl, hc, trivial⟩
  apply hask.bind
  intro _ _
  apply reads_peek.bind
  rintro t rfl
  exact reads_pure rfl

theorem Reads.found {p q : Parse α} (htag : k.tag = tag) (h : Reads p (k :: ks) after Q) :
    Reads (do if ← check tag then p else q) (k :: ks) after Q := by
  apply reads_check.bind
  rintro found rfl
  rwa [if_pos (beq_iff_eq.mpr htag)]

theorem Reads.missing {p q : Parse α} (htag : k.tag ≠ tag) (h : Reads q (k :: ks) after Q) :
    Reads (do if ← check tag then p else q) (k :: ks) after Q := by
  apply reads_check.bind
  rintro found rfl
  rwa [if_neg fun hfound => htag (beq_iff_eq.mp hfound)]

theorem reads_take?_some (htag : k.tag = tag) :
    Reads (take? tag) (k :: ks) ks fun t => ∃ u, t = some u := by
  apply Reads.found htag
  apply reads_next.bind
  intro t _
  exact reads_pure ⟨t, rfl⟩

theorem reads_take?_none (htag : k.tag ≠ tag) :
    Reads (take? tag) (k :: ks) (k :: ks) fun t => t = none :=
  Reads.missing htag (reads_pure rfl)

theorem reads_expect (htag : k.tag = tag) :
    Reads (expect tag) (k :: ks) ks fun t => t.kind = k := by
  have htaken : Reads (take? tag) (k :: ks) ks fun t => ∃ u : Token, t = some u ∧ u.kind = k := by
    apply Reads.found htag
    apply reads_next.bind
    intro t ht
    exact reads_pure ⟨t, rfl, ht⟩
  apply htaken.bind
  rintro _ ⟨t, rfl, ht⟩
  exact reads_pure ht

end Cursor

namespace Grammar

open Cursor Parse

variable {ks : List TokenKind}

theorem reads_symbol (s : Symbol) :
    Reads (expect (sym s)) (.symbol s :: ks) ks fun _ => True :=
  (reads_expect rfl).mono fun _ _ => trivial

theorem reads_keyword (k : Keyword) :
    Reads (expect (kw k)) (.keyword k :: ks) ks fun _ => True :=
  (reads_expect rfl).mono fun _ _ => trivial

theorem reads_ident (name : String) :
    Reads ident (.ident name :: ks) ks fun found => found.1 = name := by
  have hexpect : Reads (expect .ident) (.ident name :: ks) ks fun t => t.kind = .ident name :=
    reads_expect rfl
  apply hexpect.bind
  intro t ht
  rw [ht]
  exact reads_pure rfl

private theorem duplicate?_eq_none : ∀ {items : List (Item TypeExpr)} {seen : List String},
    (items.map Item.name).Nodup → (∀ item ∈ items, item.name ∉ seen) →
      duplicate? seen items = none
  | [], _, _, _ => rfl
  | item :: items, seen, hnodup, hfresh => by
    rw [List.map_cons, List.nodup_cons] at hnodup
    obtain ⟨hitem, hitems⟩ := List.forall_mem_cons.mp hfresh
    rw [duplicate?, if_neg (by simpa using hitem)]
    apply duplicate?_eq_none hnodup.2
    intro other hother hmem
    rcases List.mem_cons.mp hmem with hsame | hseen
    · exact hnodup.1 (hsame ▸ List.mem_map_of_mem hother)
    · exact hitems other hother hseen

theorem reads_distinct {items : List (Item TypeExpr)} (h : (items.map Item.name).Nodup) :
    Reads (distinct items) ks ks fun _ => True := by
  unfold distinct
  rw [duplicate?_eq_none h (by simp)]
  exact reads_pure trivial

theorem eventually_of_succ {P : Nat → Prop} (h : ∀ᶠ fuel in atTop, P (fuel + 1)) :
    ∀ᶠ fuel in atTop, P fuel := by
  rw [← map_add_atTop_eq_nat 1]
  exact eventually_map.mpr h

theorem eventually_of_forall_succ {P : Nat → Prop} (h : ∀ fuel, P (fuel + 1)) :
    ∀ᶠ fuel in atTop, P fuel :=
  eventually_of_succ (Eventually.of_forall h)

/-- From enough fuel on the rule reads the phrase, unless it is followed by a forbidden tag. -/
def ReadBy {α : Type} (rule : Nat → Parse α) (forbidden : List Tag) (ts : List TokenKind)
    (Q : α → Prop) : Prop :=
  ∀ k rest, k.tag ∉ forbidden →
    ∀ᶠ fuel in atTop, Reads (rule fuel) (ts ++ k :: rest) (k :: rest) Q

theorem ReadBy.mono {α : Type} {rule : Nat → Parse α} {forbidden : List Tag} {ts : List TokenKind}
    {Q Q' : α → Prop} (h : ReadBy rule forbidden ts Q) (himp : ∀ a, Q a → Q' a) :
    ReadBy rule forbidden ts Q' := by
  intro k rest hk
  filter_upwards [h k rest hk] with fuel hfuel
  exact hfuel.mono himp

section Lists

variable {α β : Type} {one : Nat → Parse α} {more : Nat → Parse (List α)} {forbidden : List Tag}
  {written : β → List TokenKind} {Q : β → α → Prop}

private theorem exists_following (hcomma : sym .comma ∉ forbidden) (parts : List (List TokenKind))
    {k : TokenKind} (rest : List TokenKind) (hk : k.tag ∉ forbidden) :
    ∃ k' rest', following parts ++ k :: rest = k' :: rest' ∧ k'.tag ∉ forbidden := by
  cases parts with
  | nil => exact ⟨k, rest, rfl, hk⟩
  | cons part parts => exact ⟨.symbol .comma, _, rfl, hcomma⟩

/-- The rule `{ "," one }`. -/
def IsMore (one : Nat → Parse α) (more : Nat → Parse (List α)) : Prop :=
  ∀ fuel, more (fuel + 1) = do
    match ← take? (sym .comma) with
    | none => return []
    | some _ =>
      let a ← one fuel
      let rest ← more fuel
      return a :: rest

theorem readBy_more (hmore : IsMore one more) (hcomma : sym .comma ∉ forbidden) {parts : List β}
    (hparts : ∀ part ∈ parts, ReadBy one forbidden (written part) (Q part)) :
    ReadBy more (sym .comma :: forbidden) (following (parts.map written))
      (List.Forall₂ Q parts) := by
  intro k rest hk
  obtain ⟨hnone, hk⟩ := not_or.mp (fun h => hk (List.mem_cons.mpr h))
  induction parts with
  | nil =>
    apply eventually_of_forall_succ
    intro fuel
    rw [hmore]
    apply (reads_take?_none hnone).bind
    rintro _ rfl
    exact reads_pure .nil
  | cons part parts ih =>
    obtain ⟨hpart, hparts⟩ := List.forall_mem_cons.mp hparts
    obtain ⟨k', rest', hnext, hk'⟩ := exists_following hcomma (parts.map written) rest hk
    apply eventually_of_succ
    filter_upwards [hpart k' rest' hk', ih hparts] with fuel hone hrest
    have hwritten : following ((part :: parts).map written) ++ k :: rest =
        .symbol .comma :: (written part ++ k' :: rest') := by
      rw [← hnext]
      simp [following]
    rw [hmore, hwritten]
    apply (reads_take?_some rfl).bind
    rintro _ ⟨_, rfl⟩
    apply hone.bind
    intro a ha
    rw [← hnext]
    apply hrest.bind
    intro rest hrest
    exact reads_pure (.cons ha hrest)

/-- Parts of a list in front of a closing token, if there are any. -/
theorem reads_listed (hmore : IsMore one more) (hcomma : sym .comma ∉ forbidden) {close : Symbol}
    (hclose : sym close ∉ sym .comma :: forbidden) {parts : List β}
    (hfirst : ∀ part ∈ parts, ∃ k ks, written part = k :: ks ∧ k.tag ≠ sym close)
    (hparts : ∀ part ∈ parts, ReadBy one forbidden (written part) (Q part))
    (rest : List TokenKind) :
    ∀ᶠ fuel in atTop, Reads (do
        if ← check (sym close) then return []
        let first ← one fuel
        let rest ← more fuel
        return first :: rest)
      (listed (parts.map written) ++ .symbol close :: rest) (.symbol close :: rest)
      (List.Forall₂ Q parts) := by
  cases parts with
  | nil =>
    apply Eventually.of_forall
    intro fuel
    exact Reads.found rfl (reads_pure .nil)
  | cons part parts =>
    obtain ⟨hpart, hparts⟩ := List.forall_mem_cons.mp hparts
    obtain ⟨first, ks, hwritten, hdiffers⟩ := hfirst part (by simp)
    obtain ⟨k, rest', hnext, hk⟩ := exists_following hcomma (parts.map written) rest
      (k := .symbol close) fun h => hclose (List.mem_cons_of_mem _ h)
    filter_upwards [hpart k rest' hk,
      readBy_more hmore hcomma hparts (.symbol close) rest hclose] with fuel hone hrest
    have hstart : listed ((part :: parts).map written) ++ .symbol close :: rest =
        first :: (ks ++ k :: rest') := by
      rw [← hnext, List.map_cons, listed, hwritten]
      simp
    rw [hstart]
    apply Reads.missing hdiffers
    rw [hwritten] at hone
    apply hone.bind
    intro a ha
    rw [← hnext]
    apply hrest.bind
    intro rest hrest
    exact reads_pure (.cons ha hrest)

end Lists

theorem isMore_types : IsMore type moreTypes := fun _ => rfl

theorem isMore_items : IsMore item moreItems := fun _ => rfl

theorem readBy_typeName (name : String) : ReadBy type [] [.ident name] fun _ => True := by
  intro k rest _
  apply eventually_of_forall_succ
  intro fuel
  rw [type]
  apply reads_peek.bind
  intro start _
  apply Reads.found rfl
  apply (reads_ident name).bind
  rintro ⟨_, pos⟩ _
  exact reads_pure trivial

theorem readBy_arrayType {elem : List TokenKind} (helem : ReadBy type [] elem fun _ => True) :
    ReadBy type [] (.symbol .lbracket :: elem ++ [.symbol .rbracket]) fun _ => True := by
  intro k rest _
  apply eventually_of_succ
  filter_upwards [helem (.symbol .rbracket) (k :: rest) (by simp)] with fuel helem
  rw [type]
  simp only [List.cons_append, List.append_assoc, List.nil_append]
  apply reads_peek.bind
  intro start _
  apply Reads.missing (by decide)
  apply Reads.found rfl
  apply (reads_symbol _).bind
  intro _ _
  apply helem.bind
  intro _ _
  apply (reads_symbol _).bind
  intro _ _
  exact reads_pure trivial

theorem readBy_tupleType {parts : List (List TokenKind)} (hlength : 2 ≤ parts.length)
    (hparts : ∀ part ∈ parts, ReadBy type [] part fun _ => True) :
    ReadBy type [] (.symbol .lparen :: listed parts ++ [.symbol .rparen]) fun _ => True := by
  match parts, hlength with
  | first :: second :: more, _ =>
    intro k rest _
    obtain ⟨hfirst, hparts⟩ := List.forall_mem_cons.mp hparts
    obtain ⟨hsecond, hmore⟩ := List.forall_mem_cons.mp hparts
    have hmore : ReadBy moreTypes [sym .comma] (following (more.map id))
        (List.Forall₂ (fun _ _ => True) more) := readBy_more isMore_types (by simp) hmore
    rw [List.map_id] at hmore
    have hrparen : (TokenKind.symbol .rparen).tag ∉ [sym .comma] := by decide
    obtain ⟨k', rest', hnext, -⟩ :=
      exists_following List.not_mem_nil more (k :: rest) (k := .symbol .rparen) List.not_mem_nil
    apply eventually_of_succ
    filter_upwards [hfirst (.symbol .comma) (second ++ k' :: rest') (by simp),
      hsecond k' rest' (by simp), hmore (.symbol .rparen) (k :: rest) hrparen] with fuel hfirst
      hsecond hmore
    have hstart : .symbol .lparen :: listed (first :: second :: more) ++ [.symbol .rparen] ++
        k :: rest =
          .symbol .lparen :: (first ++ .symbol .comma :: (second ++ k' :: rest')) := by
      rw [← hnext]
      simp [listed, following]
    rw [type, hstart]
    apply reads_peek.bind
    intro start _
    apply Reads.missing (by decide)
    apply Reads.missing (by decide)
    apply Reads.found rfl
    apply (reads_symbol _).bind
    intro _ _
    apply hfirst.bind
    intro _ _
    apply (reads_symbol _).bind
    intro _ _
    apply hsecond.bind
    intro _ _
    rw [← hnext]
    apply hmore.bind
    intro _ _
    apply (reads_symbol _).bind
    intro _ _
    exact reads_pure trivial

theorem readBy_item (name : String) {part : List TokenKind}
    (hpart : ReadBy type [] part fun _ => True) :
    ReadBy item [] (itemKinds (name, part)) fun found => found.name = name := by
  intro k rest hk
  apply eventually_of_succ
  filter_upwards [hpart k rest hk] with fuel hpart
  rw [item]
  apply (reads_ident name).bind
  rintro ⟨_, pos⟩ rfl
  apply (reads_symbol _).bind
  intro _ _
  apply hpart.bind
  intro _ _
  exact reads_pure rfl

private theorem names_of_forall₂ {items : List (String × List TokenKind)}
    {found : List (Item TypeExpr)}
    (h : List.Forall₂ (fun item (i : Item TypeExpr) => i.name = item.1) items found) :
    found.map Item.name = items.map Prod.fst := by
  induction h with
  | nil => rfl
  | cons hname _ ih => rw [List.map_cons, List.map_cons, hname, ih]

theorem readBy_recordType {items : List (String × List TokenKind)} (hlength : 1 ≤ items.length)
    (hitems : ∀ item ∈ items, ReadBy type [] item.2 fun _ => True)
    (hnames : (items.map Prod.fst).Nodup) :
    ReadBy type [] (.symbol .lcurly :: listed (items.map itemKinds) ++ [.symbol .rcurly])
      fun _ => True := by
  match items, hlength with
  | (name, part) :: more, _ =>
    intro k rest _
    obtain ⟨hpart, hmore⟩ := List.forall_mem_cons.mp hitems
    have hmore : ReadBy moreItems [sym .comma] (following (more.map itemKinds))
        (List.Forall₂ (fun item i => i.name = item.1) more) :=
      readBy_more isMore_items (by simp) fun item hitem => readBy_item item.1 (hmore item hitem)
    have hrcurly : (TokenKind.symbol .rcurly).tag ∉ [sym .comma] := by decide
    obtain ⟨k', rest', hnext, hk'⟩ := exists_following List.not_mem_nil (more.map itemKinds)
      (k :: rest) (k := .symbol .rcurly) List.not_mem_nil
    apply eventually_of_succ
    filter_upwards [readBy_item name hpart k' rest' hk',
      hmore (.symbol .rcurly) (k :: rest) hrcurly] with fuel hfirst hmore
    have hstart : .symbol .lcurly :: listed (((name, part) :: more).map itemKinds) ++
        [.symbol .rcurly] ++ k :: rest =
          .symbol .lcurly :: (itemKinds (name, part) ++ k' :: rest') := by
      rw [← hnext]
      simp [listed]
    rw [type, hstart]
    apply reads_peek.bind
    intro start _
    apply Reads.missing (by decide)
    apply Reads.missing (by decide)
    apply Reads.missing (by decide)
    apply Reads.found rfl
    apply (reads_symbol _).bind
    intro _ _
    apply hfirst.bind
    intro first hname
    rw [← hnext]
    apply hmore.bind
    intro found hfound
    apply (reads_symbol _).bind
    intro _ _
    have hdistinct : ((first :: found).map Item.name).Nodup := by
      rw [List.map_cons, hname, names_of_forall₂ hfound]
      exact hnames
    apply (reads_distinct hdistinct).bind
    intro _ _
    exact reads_pure trivial

theorem reads_items {written : List (String × List TokenKind)} {close : Symbol}
    (hclose : close ≠ .comma) (hitems : ∀ item ∈ written, ReadBy type [] item.2 fun _ => True)
    (rest : List TokenKind) :
    ∀ᶠ fuel in atTop, Reads (items fuel (sym close))
      (listed (written.map itemKinds) ++ .symbol close :: rest) (.symbol close :: rest)
      fun found => found.map Item.name = written.map Prod.fst := by
  have hlisted : ∀ᶠ fuel in atTop, Reads (items fuel (sym close))
      (listed (written.map itemKinds) ++ .symbol close :: rest) (.symbol close :: rest)
      (List.Forall₂ (fun item i => i.name = item.1) written) :=
    reads_listed isMore_items List.not_mem_nil (by simpa using hclose)
      (fun item _ => ⟨.ident item.1, _, rfl, by simp [TokenKind.tag]⟩)
      (fun item hitem => readBy_item item.1 (hitems item hitem)) rest
  filter_upwards [hlisted] with fuel hfuel
  exact hfuel.mono fun _ => names_of_forall₂

def atomGoesOn : List Tag := [sym .lparen, sym .lcurly]

def exprGoesOn : List Tag :=
  atomGoesOn ++ [sym .equal, sym .plus, sym .minus, sym .star, sym .slash]

theorem tag_ne_of_not_mem {tag : Tag} {tags : List Tag} {k : TokenKind} (h : k.tag ∉ tags)
    (hmem : tag ∈ tags) : k.tag ≠ tag :=
  fun heq => h (heq ▸ hmem)

theorem reads_peekOperator_some (op : Operator) :
    Reads peekOperator (op.kind :: ks) (op.kind :: ks) fun found => found = some op := by
  unfold peekOperator
  cases op with
  | assign => exact Reads.found rfl (reads_pure rfl)
  | arith op =>
    cases op with
    | add => exact Reads.missing (by decide) (Reads.found rfl (reads_pure rfl))
    | sub =>
      exact Reads.missing (by decide) (Reads.missing (by decide) (Reads.found rfl (reads_pure rfl)))
    | mul =>
      exact Reads.missing (by decide) (Reads.missing (by decide) (Reads.missing (by decide)
        (Reads.found rfl (reads_pure rfl))))
    | div =>
      exact Reads.missing (by decide) (Reads.missing (by decide) (Reads.missing (by decide)
        (Reads.missing (by decide) (Reads.found rfl (reads_pure rfl)))))

theorem reads_peekOperator_none {k : TokenKind} (hk : k.tag ∉ exprGoesOn) :
    Reads peekOperator (k :: ks) (k :: ks) fun found => found = none := by
  have hdiffers : ∀ tag ∈ exprGoesOn, k.tag ≠ tag := fun tag hmem => tag_ne_of_not_mem hk hmem
  unfold peekOperator
  apply Reads.missing (hdiffers _ (by decide))
  apply Reads.missing (hdiffers _ (by decide))
  apply Reads.missing (hdiffers _ (by decide))
  apply Reads.missing (hdiffers _ (by decide))
  apply Reads.missing (hdiffers _ (by decide))
  exact reads_pure rfl

theorem reads_climbRest_stop {k : TokenKind} (hk : k.tag ∉ exprGoesOn) (rest : List TokenKind)
    (least : Nat) : ∀ᶠ fuel in atTop, ∀ e,
      Reads (climbRest fuel least e) (k :: rest) (k :: rest) fun found => found = e := by
  apply eventually_of_forall_succ
  intro fuel e
  rw [climbRest]
  apply (reads_peekOperator_none hk).bind
  rintro _ rfl
  exact reads_pure rfl

theorem readBy_climb {ts : List TokenKind} {Q : Expr → Prop} (h : ReadBy atom atomGoesOn ts Q)
    (least : Nat) : ReadBy (fun fuel => climb fuel least) exprGoesOn ts Q := by
  intro k rest hk
  have hatom := h k rest fun hmem => hk (List.mem_append_left _ hmem)
  apply eventually_of_succ
  filter_upwards [hatom, reads_climbRest_stop hk rest least] with fuel hatom hstop
  rw [climb]
  apply hatom.bind
  intro e he
  apply (hstop e).mono
  rintro _ rfl
  exact he

private theorem exists_operands (more : List (Operator × List TokenKind)) {k : TokenKind}
    (rest : List TokenKind) (hk : k.tag ∉ exprGoesOn) :
    ∃ k' rest', operands more ++ k :: rest = k' :: rest' ∧ k'.tag ∉ atomGoesOn := by
  cases more with
  | nil => exact ⟨k, rest, rfl, fun hmem => hk (List.mem_append_left _ hmem)⟩
  | cons operand more =>
    refine ⟨operand.1.kind, _, rfl, ?_⟩
    cases operand.1 with
    | assign => decide
    | arith op => cases op <;> decide

/-- Operators of arithmetic are read as long as they bind tightly enough. The induction is on the
number of operands, since those that a right operand leaves are read after it. -/
theorem exists_climbRest {k : TokenKind} (hk : k.tag ∉ exprGoesOn) (rest : List TokenKind) (n : Nat)
    {more : List (Operator × List TokenKind)} (hlength : more.length ≤ n)
    (harith : ∀ operand ∈ more, operand.1 ≠ .assign)
    (hatoms : ∀ operand ∈ more, ReadBy atom atomGoesOn operand.2 fun _ => True) (least : Nat) :
    ∃ left, left <:+ more ∧ (∀ operand ∈ left.head?, operand.1.precedence < least) ∧
      ∀ᶠ fuel in atTop, ∀ e, Reads (climbRest fuel least e) (operands more ++ k :: rest)
        (operands left ++ k :: rest) fun _ => True := by
  induction n generalizing more least with
  | zero =>
    obtain rfl := List.length_eq_zero_iff.mp (Nat.le_zero.mp hlength)
    refine ⟨[], List.suffix_refl _, by simp, ?_⟩
    filter_upwards [reads_climbRest_stop hk rest least] with fuel hstop e
    exact (hstop e).mono fun _ _ => trivial
  | succ n ih =>
    match more, hlength, harith, hatoms with
    | [], _, harith, hatoms =>
      have hnone : ([] : List (Operator × List TokenKind)).length ≤ n := Nat.zero_le n
      exact ih hnone harith hatoms least
    | (.assign, value) :: more, _, harith, _ => exact absurd rfl (harith (.assign, value) (by simp))
    | (.arith op, value) :: more, hlength, harith, hatoms =>
      obtain ⟨hvalue, hatoms⟩ := List.forall_mem_cons.mp hatoms
      have harith := (List.forall_mem_cons.mp harith).2
      by_cases hleast : (Operator.arith op).precedence < least
      · refine ⟨(.arith op, value) :: more, List.suffix_refl _, by simpa using hleast, ?_⟩
        apply eventually_of_forall_succ
        intro fuel e
        rw [climbRest]
        apply (reads_peekOperator_some (.arith op)).bind
        rintro _ rfl
        dsimp only
        rw [if_pos hleast]
        exact reads_pure trivial
      · have hmore : more.length ≤ n := Nat.le_of_succ_le_succ hlength
        obtain ⟨between, hbetween, -, hright⟩ := ih hmore harith hatoms (op.precedence + 1)
        obtain ⟨left, hleft, hhead, hrest⟩ := ih (Nat.le_trans hbetween.length_le hmore)
          (fun operand hmem => harith operand (hbetween.mem hmem))
          (fun operand hmem => hatoms operand (hbetween.mem hmem)) least
        refine ⟨left, hleft.trans (hbetween.trans (List.suffix_cons _ _)), hhead, ?_⟩
        obtain ⟨k', rest', hnext, hk'⟩ := exists_operands more rest hk
        have hclimb : ∀ᶠ fuel in atTop, Reads (climb fuel (op.precedence + 1))
            (value ++ k' :: rest') (operands between ++ k :: rest) fun _ => True := by
          apply eventually_of_succ
          filter_upwards [hvalue k' rest' hk', hright] with fuel hvalue hright
          rw [climb]
          apply hvalue.bind
          intro e _
          rw [← hnext]
          exact hright e
        apply eventually_of_succ
        filter_upwards [hclimb, hrest] with fuel hclimb hrest e
        have hstart : operands ((.arith op, value) :: more) ++ k :: rest =
            (Operator.arith op).kind :: (value ++ k' :: rest') := by
          rw [← hnext]
          simp [operands]
        rw [climbRest, hstart]
        apply (reads_peekOperator_some (.arith op)).bind
        rintro _ rfl
        dsimp only
        rw [if_neg hleast]
        apply reads_next.bind
        intro t _
        apply hclimb.bind
        intro right _
        exact hrest _

def literalTags : List Tag := [.integer, .text, .char, kw .kTrue, kw .kFalse]

def atomTags : List Tag :=
  literalTags ++ [sym .lparen, sym .lbracket, kw .kDefault, .ident]

theorem Derives.exists_atomTag {ts : List TokenKind} (h : Derives .atom ts) :
    ∃ k ks, ts = k :: ks ∧ k.tag ∈ atomTags := by
  cases h <;> exact ⟨_, _, rfl, by simp [atomTags, literalTags, TokenKind.tag]⟩

theorem Derives.exists_exprTag {ts : List TokenKind} (h : Derives .expr ts) :
    ∃ k ks, ts = k :: ks ∧ k.tag ∈ atomTags := by
  cases h with
  | expr hfirst _ _ =>
    obtain ⟨k, ks, rfl, hk⟩ := hfirst.exists_atomTag
    exact ⟨k, _, rfl, hk⟩

theorem reads_literalBranch {α : Type} {p q : Parse α} {k : TokenKind} {after : List TokenKind}
    {Q : α → Prop} (htag : k.tag ∈ literalTags) (h : Reads p (k :: ks) after Q) :
    Reads (do if ← checkLiteral then p else q) (k :: ks) after Q := by
  have hcheck : Reads checkLiteral (k :: ks) (k :: ks) fun found => found = true := by
    unfold checkLiteral
    by_cases hinteger : k.tag = .integer
    · exact Reads.found hinteger (reads_pure rfl)
    apply Reads.missing hinteger
    by_cases htext : k.tag = .text
    · exact Reads.found htext (reads_pure rfl)
    apply Reads.missing htext
    by_cases hchar : k.tag = .char
    · exact Reads.found hchar (reads_pure rfl)
    apply Reads.missing hchar
    by_cases htrue : k.tag = kw .kTrue
    · exact Reads.found htrue (reads_pure rfl)
    apply Reads.missing htrue
    have hfalse : k.tag = kw .kFalse := by
      simpa [literalTags, hinteger, htext, hchar, htrue] using htag
    apply reads_check.mono
    rintro _ rfl
    exact beq_iff_eq.mpr hfalse
  apply hcheck.bind
  rintro _ rfl
  exact h

theorem reads_otherBranch {α : Type} {p q : Parse α} {k : TokenKind} {after : List TokenKind}
    {Q : α → Prop} (htag : k.tag ∉ literalTags) (h : Reads q (k :: ks) after Q) :
    Reads (do if ← checkLiteral then p else q) (k :: ks) after Q := by
  have hdiffers : ∀ tag ∈ literalTags, k.tag ≠ tag := fun tag hmem => tag_ne_of_not_mem htag hmem
  have hcheck : Reads checkLiteral (k :: ks) (k :: ks) fun found => found = false := by
    unfold checkLiteral
    apply Reads.missing (hdiffers _ (by decide))
    apply Reads.missing (hdiffers _ (by decide))
    apply Reads.missing (hdiffers _ (by decide))
    apply Reads.missing (hdiffers _ (by decide))
    apply reads_check.mono
    rintro _ rfl
    exact beq_eq_false_iff_ne.mpr (hdiffers _ (by decide))
  apply hcheck.bind
  rintro _ rfl
  exact h

theorem reads_literal {k : TokenKind} (htag : k.tag ∈ literalTags) :
    Reads literal (k :: ks) ks fun _ => True := by
  unfold literal
  apply reads_next.bind
  intro t ht
  rw [ht]
  cases k with
  | integer v => exact reads_pure trivial
  | text s => exact reads_pure trivial
  | char c => exact reads_pure trivial
  | keyword word =>
    cases word with
    | kTrue | kFalse => exact reads_pure trivial
    | _ => exact absurd htag (by decide)
  | _ => simp [literalTags, TokenKind.tag] at htag

theorem readBy_literal {k : TokenKind} (htag : k.tag ∈ literalTags) :
    ReadBy atom atomGoesOn [k] fun _ => True := by
  intro k' rest _
  apply eventually_of_forall_succ
  intro fuel
  rw [atom]
  apply reads_peek.bind
  intro start _
  apply reads_literalBranch htag
  apply (reads_literal htag).bind
  intro _ _
  exact reads_pure trivial

theorem readBy_parenthesised {ts : List TokenKind} {Q : Expr → Prop}
    (hstart : ∃ k ks, ts = k :: ks ∧ k.tag ≠ sym .rparen) (h : ReadBy expr exprGoesOn ts Q) :
    ReadBy atom atomGoesOn (.symbol .lparen :: ts ++ [.symbol .rparen]) Q := by
  intro k rest _
  obtain ⟨first, ks, rfl, hfirst⟩ := hstart
  apply eventually_of_succ
  filter_upwards [h (.symbol .rparen) (k :: rest) (by decide)] with fuel hexpr
  simp only [List.cons_append, List.append_assoc, List.nil_append] at hexpr ⊢
  rw [atom]
  apply reads_peek.bind
  intro start _
  apply reads_otherBranch (by decide)
  apply Reads.found rfl
  apply (reads_symbol _).bind
  intro _ _
  apply (reads_take?_none hfirst).bind
  rintro _ rfl
  apply hexpr.bind
  intro e he
  apply (reads_take?_some rfl).bind
  rintro _ ⟨_, rfl⟩
  exact reads_pure he

theorem readBy_ident (name : String) :
    ReadBy atom atomGoesOn [.ident name] fun e => ∃ info, e = .ident info name := by
  intro k rest hk
  apply eventually_of_forall_succ
  intro fuel
  rw [atom]
  apply reads_peek.bind
  intro start _
  apply reads_otherBranch (by simp [literalTags, TokenKind.tag])
  apply Reads.missing (by simp [TokenKind.tag])
  apply Reads.missing (by simp [TokenKind.tag])
  apply Reads.missing (by simp [TokenKind.tag])
  apply Reads.found rfl
  apply (reads_ident name).bind
  rintro ⟨_, pos⟩ rfl
  apply Reads.missing (tag_ne_of_not_mem hk (by decide))
  apply Reads.missing (tag_ne_of_not_mem hk (by decide))
  exact reads_pure ⟨_, rfl⟩

private theorem Named.exists_tag {ts : List TokenKind} (h : Named ts) :
    ∃ k ks, ts = k :: ks ∧ k.tag ≠ sym .rparen := by
  cases h with
  | ident name => exact ⟨_, _, rfl, by simp [TokenKind.tag]⟩
  | paren _ => exact ⟨_, _, rfl, by decide⟩

theorem readBy_named {ts : List TokenKind} (h : Named ts) :
    ReadBy atom atomGoesOn ts fun e => ∃ info name, e = .ident info name := by
  induction h with
  | ident name =>
    apply (readBy_ident name).mono
    rintro e ⟨info, he⟩
    exact ⟨info, name, he⟩
  | paren hts ih => exact readBy_parenthesised hts.exists_tag (readBy_climb ih 0)

theorem readBy_expr {first : List TokenKind} {more : List (Operator × List TokenKind)}
    (hfirst : ReadBy atom atomGoesOn first fun _ => True)
    (hmore : ∀ operand ∈ more, ReadBy atom atomGoesOn operand.2 fun _ => True)
    (hnames : Assignable first more) :
    ReadBy expr exprGoesOn (first ++ operands more) fun _ => True := by
  induction more generalizing first with
  | nil =>
    rw [operands, List.flatMap_nil, List.append_nil]
    exact readBy_climb hfirst 0
  | cons operand more ih =>
    intro k rest hk
    obtain ⟨k', rest', hnext, hk'⟩ := exists_operands (operand :: more) rest hk
    have hstart : first ++ operands (operand :: more) ++ k :: rest = first ++ k' :: rest' := by
      rw [List.append_assoc, hnext]
    rw [hstart]
    obtain ⟨op, value⟩ := operand
    cases op with
    | arith op =>
      -- no operator binds less than all of them, so none is left
      have harith : ∀ operand ∈ (Operator.arith op, value) :: more, operand.1 ≠ .assign :=
        List.forall_mem_cons.mpr ⟨by simp, hnames.arith⟩
      obtain ⟨left, -, hhead, hrest⟩ := exists_climbRest hk rest _ (Nat.le_refl _) harith hmore 0
      have hnone : left = [] := by
        cases left with
        | nil => rfl
        | cons operand left => exact absurd (hhead operand (by simp)) (Nat.not_lt_zero _)
      apply eventually_of_succ
      filter_upwards [hfirst k' rest' hk', hrest] with fuel hfirst hrest
      rw [expr, climb]
      apply hfirst.bind
      intro e _
      have hrest := hrest e
      rwa [hnone, hnext] at hrest
    | assign =>
      obtain ⟨hvalue, hmore⟩ := List.forall_mem_cons.mp hmore
      obtain ⟨hnamed, hnames⟩ := assignable_assign.mp hnames
      have hright := ih hvalue hmore hnames k rest hk
      have hassign : ∀ᶠ fuel in atTop, ∀ info name, Reads (climbRest fuel 0 (.ident info name))
          (k' :: rest') (k :: rest) fun _ => True := by
        apply eventually_of_succ
        filter_upwards [hright, reads_climbRest_stop hk rest 0] with fuel hright hstop info name
        have hstart : k' :: rest' =
            Operator.assign.kind :: (value ++ operands more ++ k :: rest) := by
          rw [← hnext]
          rfl
        rw [climbRest, hstart]
        apply (reads_peekOperator_some .assign).bind
        rintro _ rfl
        dsimp only
        rw [if_neg (Nat.not_lt_zero _)]
        apply reads_next.bind
        intro t _
        apply hright.bind
        intro right _
        exact (hstop _).mono fun _ _ => trivial
      apply eventually_of_succ
      filter_upwards [readBy_named hnamed k' rest' hk', hassign] with fuel hfirst hassign
      rw [expr, climb]
      apply hfirst.bind
      rintro _ ⟨info, name, rfl⟩
      exact hassign info name

theorem isMore_exprs : IsMore expr moreExprs := fun _ => rfl

theorem isMore_inits : IsMore init moreInits := fun _ => rfl

section Parts

variable {parts : List (List TokenKind)} (hstart : ∀ part ∈ parts, Derives .expr part)
  (hparts : ∀ part ∈ parts, ReadBy expr exprGoesOn part fun _ => True)

include hstart hparts

theorem reads_exprs (close : Symbol) (hclose : sym close ∉ sym .comma :: exprGoesOn)
    (hother : sym close ∉ atomTags) (rest : List TokenKind) :
    ∀ᶠ fuel in atTop, Reads (exprs fuel (sym close)) (listed parts ++ .symbol close :: rest)
      (.symbol close :: rest) fun _ => True := by
  have hfirst : ∀ part ∈ parts, ∃ k ks, id part = k :: ks ∧ k.tag ≠ sym close := by
    intro part hpart
    obtain ⟨k, ks, hks, htag⟩ := (hstart part hpart).exists_exprTag
    exact ⟨k, ks, hks, fun heq => hother (heq ▸ htag)⟩
  have hlisted := reads_listed isMore_exprs (by decide) hclose hfirst hparts rest
  rw [List.map_id] at hlisted
  apply eventually_of_succ
  filter_upwards [hlisted] with fuel hfuel
  rw [exprs]
  exact hfuel.mono fun _ _ => trivial

theorem readBy_paren :
    ReadBy atom atomGoesOn (.symbol .lparen :: listed parts ++ [.symbol .rparen])
      fun _ => True := by
  match parts, hstart, hparts with
  | [], _, _ =>
    intro k rest _
    apply eventually_of_forall_succ
    intro fuel
    rw [atom]
    apply reads_peek.bind
    intro start _
    apply reads_otherBranch (by decide)
    apply Reads.found rfl
    apply (reads_symbol _).bind
    intro _ _
    apply (reads_take?_some rfl).bind
    rintro _ ⟨_, rfl⟩
    exact reads_pure trivial
  | [part], hstart, hparts =>
    obtain ⟨k, ks, hks, htag⟩ := (hstart part (by simp)).exists_exprTag
    have hfirst : ∃ k ks, part = k :: ks ∧ k.tag ≠ sym .rparen :=
      ⟨k, ks, hks, fun heq => absurd (heq ▸ htag) (by decide)⟩
    have hparen := readBy_parenthesised hfirst (hparts part (by simp))
    simpa [listed, following] using hparen
  | first :: second :: more, hstart, hparts =>
    intro k rest _
    obtain ⟨first', ks, hks, htag⟩ := (hstart first (by simp)).exists_exprTag
    obtain ⟨hfirst, hmore⟩ := List.forall_mem_cons.mp hparts
    have hmore : ReadBy moreExprs (sym .comma :: exprGoesOn) (following ((second :: more).map id))
        (List.Forall₂ (fun _ _ => True) (second :: more)) :=
      readBy_more isMore_exprs (by decide) hmore
    rw [List.map_id] at hmore
    have hcomma : (TokenKind.symbol .comma).tag ∉ exprGoesOn := by decide
    have hrparen : (TokenKind.symbol .rparen).tag ∉ sym .comma :: exprGoesOn := by decide
    have htail : following (second :: more) ++ .symbol .rparen :: k :: rest =
        .symbol .comma :: (second ++ following more ++ .symbol .rparen :: k :: rest) := by
      simp [following]
    apply eventually_of_succ
    filter_upwards [hfirst (.symbol .comma) _ hcomma,
      hmore (.symbol .rparen) (k :: rest) hrparen] with fuel hfirst hmore
    have htokens : .symbol .lparen :: listed (first :: second :: more) ++ [.symbol .rparen] ++
        k :: rest = .symbol .lparen :: first' :: (ks ++ .symbol .comma ::
          (second ++ following more ++ .symbol .rparen :: k :: rest)) := by
      rw [← htail, listed, hks]
      simp
    rw [atom, htokens]
    apply reads_peek.bind
    intro start _
    apply reads_otherBranch (by decide)
    apply Reads.found rfl
    apply (reads_symbol _).bind
    intro _ _
    apply (reads_take?_none fun heq => absurd (heq ▸ htag) (by decide)).bind
    rintro _ rfl
    rw [hks] at hfirst
    apply hfirst.bind
    intro e _
    apply (reads_take?_none (by decide)).bind
    rintro _ rfl
    rw [← htail]
    apply hmore.bind
    intro _ _
    apply (reads_symbol _).bind
    intro _ _
    exact reads_pure trivial

theorem readBy_array :
    ReadBy atom atomGoesOn (.symbol .lbracket :: listed parts ++ [.symbol .rbracket])
      fun _ => True := by
  intro k rest _
  apply eventually_of_succ
  filter_upwards [reads_exprs hstart hparts .rbracket (by decide) (by decide) (k :: rest)] with
    fuel hexprs
  simp only [List.cons_append, List.append_assoc, List.nil_append]
  rw [atom]
  apply reads_peek.bind
  intro start _
  apply reads_otherBranch (by decide)
  apply Reads.missing (by decide)
  apply Reads.found rfl
  apply (reads_symbol _).bind
  intro _ _
  apply hexprs.bind
  intro _ _
  apply (reads_symbol _).bind
  intro _ _
  exact reads_pure trivial

theorem readBy_call (name : String) :
    ReadBy atom atomGoesOn
      (.ident name :: .symbol .lparen :: listed parts ++ [.symbol .rparen]) fun _ => True := by
  intro k rest _
  apply eventually_of_succ
  filter_upwards [reads_exprs hstart hparts .rparen (by decide) (by decide) (k :: rest)] with
    fuel hexprs
  simp only [List.cons_append, List.append_assoc, List.nil_append]
  rw [atom]
  apply reads_peek.bind
  intro start _
  apply reads_otherBranch (by simp [literalTags, TokenKind.tag])
  apply Reads.missing (by simp [TokenKind.tag])
  apply Reads.missing (by simp [TokenKind.tag])
  apply Reads.missing (by simp [TokenKind.tag])
  apply Reads.found rfl
  apply (reads_ident name).bind
  rintro ⟨_, pos⟩ rfl
  apply Reads.found rfl
  apply (reads_symbol _).bind
  intro _ _
  apply hexprs.bind
  intro _ _
  apply (reads_symbol _).bind
  intro _ _
  exact reads_pure trivial

end Parts

theorem readBy_default {part : List TokenKind} (hpart : ReadBy type [] part fun _ => True) :
    ReadBy atom atomGoesOn
      (.keyword .kDefault :: .symbol .lparen :: part ++ [.symbol .rparen]) fun _ => True := by
  intro k rest _
  apply eventually_of_succ
  filter_upwards [hpart (.symbol .rparen) (k :: rest) (by simp)] with fuel hpart
  simp only [List.cons_append, List.append_assoc, List.nil_append]
  rw [atom]
  apply reads_peek.bind
  intro start _
  apply reads_otherBranch (by decide)
  apply Reads.missing (by decide)
  apply Reads.missing (by decide)
  apply Reads.found rfl
  apply (reads_keyword _).bind
  intro _ _
  apply (reads_symbol _).bind
  intro _ _
  apply hpart.bind
  intro _ _
  apply (reads_symbol _).bind
  intro _ _
  exact reads_pure trivial

theorem readBy_init (name : String) {value : List TokenKind}
    (hvalue : ReadBy expr exprGoesOn value fun _ => True) :
    ReadBy init exprGoesOn (initKinds (name, value)) fun _ => True := by
  intro k rest hk
  apply eventually_of_succ
  filter_upwards [hvalue k rest hk] with fuel hvalue
  rw [init]
  apply (reads_ident name).bind
  rintro ⟨_, pos⟩ _
  apply (reads_symbol _).bind
  intro _ _
  apply hvalue.bind
  intro _ _
  exact reads_pure trivial

theorem readBy_object (name : String) {inits : List (String × List TokenKind)}
    (hinits : ∀ init ∈ inits, ReadBy expr exprGoesOn init.2 fun _ => True) :
    ReadBy atom atomGoesOn
      (.ident name :: .symbol .lcurly :: listed (inits.map initKinds) ++ [.symbol .rcurly])
      fun _ => True := by
  intro k rest _
  have hlisted : ∀ᶠ fuel in atTop, Reads (Grammar.inits fuel (sym .rcurly))
      (listed (inits.map initKinds) ++ .symbol .rcurly :: k :: rest)
      (.symbol .rcurly :: k :: rest) (List.Forall₂ (fun _ _ => True) inits) := by
    apply eventually_of_succ
    exact reads_listed isMore_inits (by decide) (by decide)
      (fun init _ => ⟨.ident init.1, _, rfl, by simp [TokenKind.tag]⟩)
      (fun init hinit => readBy_init init.1 (hinits init hinit)) (k :: rest)
  apply eventually_of_succ
  filter_upwards [hlisted] with fuel hlisted
  simp only [List.cons_append, List.append_assoc, List.nil_append]
  rw [atom]
  apply reads_peek.bind
  intro start _
  apply reads_otherBranch (by simp [literalTags, TokenKind.tag])
  apply Reads.missing (by simp [TokenKind.tag])
  apply Reads.missing (by simp [TokenKind.tag])
  apply Reads.missing (by simp [TokenKind.tag])
  apply Reads.found rfl
  apply (reads_ident name).bind
  rintro ⟨_, pos⟩ rfl
  apply Reads.missing (by decide)
  apply Reads.found rfl
  apply (reads_symbol _).bind
  intro _ _
  apply hlisted.bind
  intro _ _
  apply (reads_symbol _).bind
  intro _ _
  exact reads_pure trivial

end Grammar
end EdeLang
