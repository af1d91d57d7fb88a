import EdeLang.Proofs.Syntax.Reading

/-!
# Recognition of modules

A statement may end in a conditional that an `else` would go on with, so the phrases of statements
are brought into a form in which every `else` belongs to the nearest conditional; these are read
like all others. So the parser recognises exactly the modules.
-/

namespace EdeLang

open Filter

namespace Grammar

open Cursor Parse

variable {ks : List TokenKind}

def stmtTags : List Tag :=
  [kw .kLet, kw .kIf, kw .kWhile, sym .lcurly, kw .kReturn] ++ atomTags

theorem Derives.exists_lcurly {ts : List TokenKind} (h : Derives .block ts) :
    ∃ ks, ts = .symbol .lcurly :: ks := by
  cases h
  exact ⟨_, rfl⟩

theorem Derives.exists_stmtTag {ts : List TokenKind} (h : Derives .stmt ts) :
    ∃ k ks, ts = k :: ks ∧ k.tag ∈ stmtTags := by
  cases h with
  | blockStmt hbody =>
    obtain ⟨ks, rfl⟩ := hbody.exists_lcurly
    exact ⟨_, ks, rfl, by decide⟩
  | exprStmt he =>
    obtain ⟨k, ks, rfl, hk⟩ := he.exists_exprTag
    exact ⟨k, _, rfl, List.mem_append_right _ hk⟩
  | _ => exact ⟨_, _, rfl, by decide⟩

theorem reads_optional_some {α : Type} {p : Parse α} {s : Symbol} {after : List TokenKind}
    {Q : α → Prop} (h : Reads p ks after Q) :
    Reads (optional (sym s) p) (.symbol s :: ks) after fun found => ∃ a, found = some a := by
  apply Reads.found rfl
  apply (reads_symbol s).bind
  intro _ _
  apply h.bind
  intro a _
  exact reads_pure ⟨a, rfl⟩

theorem reads_optional_none {α : Type} {p : Parse α} {tag : Tag} {k : TokenKind}
    (htag : k.tag ≠ tag) :
    Reads (optional tag p) (k :: ks) (k :: ks) fun found => found = none :=
  Reads.missing htag (reads_pure rfl)

section

variable {type' e : List TokenKind} (htype : ReadBy type [] type' fun _ => True)
  (he : ReadBy expr exprGoesOn e fun _ => True)

include htype in
theorem readBy_declare (name : String) : ReadBy stmt []
    (.keyword .kLet :: .ident name :: .symbol .colon :: type' ++ [.symbol .semicolon])
    fun _ => True := by
  intro k rest _
  apply eventually_of_succ
  filter_upwards [htype (.symbol .semicolon) (k :: rest) (by simp)] with fuel htype
  simp only [List.cons_append, List.append_assoc, List.nil_append]
  rw [stmt]
  apply reads_peek.bind
  intro start _
  apply Reads.found rfl
  apply (reads_keyword _).bind
  intro _ _
  apply (reads_ident name).bind
  rintro ⟨_, pos⟩ _
  apply (reads_optional_some htype).bind
  rintro _ ⟨t, rfl⟩
  apply (reads_optional_none (by decide)).bind
  rintro _ rfl
  apply (reads_symbol _).bind
  intro _ _
  exact reads_pure trivial

include htype he in
theorem readBy_declareInit (name : String) : ReadBy stmt []
    (.keyword .kLet :: .ident name :: .symbol .colon :: type' ++
      .symbol .equal :: e ++ [.symbol .semicolon]) fun _ => True := by
  intro k rest _
  apply eventually_of_succ
  filter_upwards [htype (.symbol .equal) (e ++ .symbol .semicolon :: k :: rest) (by simp),
    he (.symbol .semicolon) (k :: rest) (by decide)] with fuel htype he
  simp only [List.cons_append, List.append_assoc, List.nil_append]
  rw [stmt]
  apply reads_peek.bind
  intro start _
  apply Reads.found rfl
  apply (reads_keyword _).bind
  intro _ _
  apply (reads_ident name).bind
  rintro ⟨_, pos⟩ _
  apply (reads_optional_some htype).bind
  rintro _ ⟨t, rfl⟩
  apply (reads_optional_some he).bind
  rintro _ ⟨init, rfl⟩
  apply (reads_symbol _).bind
  intro _ _
  exact reads_pure trivial

include he in
theorem readBy_initStmt (name : String) : ReadBy stmt []
    (.keyword .kLet :: .ident name :: .symbol .equal :: e ++ [.symbol .semicolon])
    fun _ => True := by
  intro k rest _
  apply eventually_of_succ
  filter_upwards [he (.symbol .semicolon) (k :: rest) (by decide)] with fuel he
  simp only [List.cons_append, List.append_assoc, List.nil_append]
  rw [stmt]
  apply reads_peek.bind
  intro start _
  apply Reads.found rfl
  apply (reads_keyword _).bind
  intro _ _
  apply (reads_ident name).bind
  rintro ⟨_, pos⟩ _
  apply (reads_optional_none (by decide)).bind
  rintro _ rfl
  apply (reads_symbol _).bind
  intro _ _
  apply he.bind
  intro _ _
  apply (reads_symbol _).bind
  intro _ _
  exact reads_pure trivial

theorem readBy_ret :
    ReadBy stmt [] [.keyword .kReturn, .symbol .semicolon] fun _ => True := by
  intro k rest _
  apply eventually_of_forall_succ
  intro fuel
  rw [stmt]
  apply reads_peek.bind
  intro start _
  apply Reads.missing (by decide)
  apply Reads.missing (by decide)
  apply Reads.missing (by decide)
  apply Reads.missing (by decide)
  apply Reads.found rfl
  apply (reads_keyword _).bind
  intro _ _
  apply Reads.found rfl
  apply (reads_symbol _).bind
  intro _ _
  exact reads_pure trivial

include he in
theorem readBy_retValue (hstart : Derives .expr e) :
    ReadBy stmt [] (.keyword .kReturn :: e ++ [.symbol .semicolon]) fun _ => True := by
  intro k rest _
  obtain ⟨first, ks, rfl, htag⟩ := hstart.exists_exprTag
  apply eventually_of_succ
  filter_upwards [he (.symbol .semicolon) (k :: rest) (by decide)] with fuel he
  simp only [List.cons_append, List.append_assoc, List.nil_append] at he ⊢
  rw [stmt]
  apply reads_peek.bind
  intro start _
  apply Reads.missing (by decide)
  apply Reads.missing (by decide)
  apply Reads.missing (by decide)
  apply Reads.missing (by decide)
  apply Reads.found rfl
  apply (reads_keyword _).bind
  intro _ _
  apply Reads.missing fun heq => absurd (heq ▸ htag) (by decide)
  apply he.bind
  intro _ _
  apply (reads_symbol _).bind
  intro _ _
  exact reads_pure trivial

include he in
theorem readBy_exprStmt (hstart : Derives .expr e) :
    ReadBy stmt [] (e ++ [.symbol .semicolon]) fun _ => True := by
  intro k rest _
  obtain ⟨first, ks, rfl, htag⟩ := hstart.exists_exprTag
  have hdiffers : ∀ tag ∉ atomTags, first.tag ≠ tag := fun tag hnot heq => hnot (heq ▸ htag)
  apply eventually_of_succ
  filter_upwards [he (.symbol .semicolon) (k :: rest) (by decide)] with fuel he
  simp only [List.cons_append, List.append_assoc, List.nil_append] at he ⊢
  rw [stmt]
  apply reads_peek.bind
  intro start _
  apply Reads.missing (hdiffers _ (by decide))
  apply Reads.missing (hdiffers _ (by decide))
  apply Reads.missing (hdiffers _ (by decide))
  apply Reads.missing (hdiffers _ (by decide))
  apply Reads.missing (hdiffers _ (by decide))
  apply he.bind
  intro _ _
  apply (reads_symbol _).bind
  intro _ _
  exact reads_pure trivial

end

theorem readBy_blockStmt {body : List TokenKind} (hstart : Derives .block body)
    (h : ReadBy block [] body fun _ => True) : ReadBy stmt [] body fun _ => True := by
  intro k rest hk
  obtain ⟨ks, rfl⟩ := hstart.exists_lcurly
  apply eventually_of_succ
  filter_upwards [h k rest hk] with fuel hblock
  rw [stmt]
  apply reads_peek.bind
  intro start _
  apply Reads.missing (by decide)
  apply Reads.missing (by decide)
  apply Reads.missing (by decide)
  exact Reads.found rfl hblock

/-- The tags with which a statement would go on, which is closed or not. -/
def stmtGoesOn (closed : Bool) : List Tag := if closed then [] else [kw .kElse]

/-- Statements in which every `else` belongs to the nearest conditional. One that is closed does
not end in a conditional without an `else`. -/
inductive Spine : Bool → List TokenKind → Prop
  | plain {ts : List TokenKind} (h : ReadBy stmt [] ts fun _ => True) : Spine true ts
  | cond {closed : Bool} {test yes : List TokenKind}
      (htest : ReadBy expr exprGoesOn test fun _ => True) (hyes : Spine closed yes) :
    Spine false (.keyword .kIf :: .symbol .lparen :: test ++ .symbol .rparen :: yes)
  | condElse {closed : Bool} {test yes no : List TokenKind}
      (htest : ReadBy expr exprGoesOn test fun _ => True) (hyes : Spine true yes)
      (hno : Spine closed no) :
    Spine closed
      (.keyword .kIf :: .symbol .lparen :: test ++ .symbol .rparen :: yes ++ .keyword .kElse :: no)
  | loop {closed : Bool} {test body : List TokenKind}
      (htest : ReadBy expr exprGoesOn test fun _ => True) (hbody : Spine closed body) :
    Spine closed (.keyword .kWhile :: .symbol .lparen :: test ++ .symbol .rparen :: body)

/-- An `else` after an open statement belongs to a conditional in it. -/
theorem Spine.graft {yes no : List TokenKind} {closed : Bool} (hyes : Spine false yes)
    (hno : Spine closed no) : ∃ closed', Spine closed' (yes ++ .keyword .kElse :: no) := by
  generalize hopen : false = isClosed at hyes
  induction hyes with
  | plain _ => cases hopen
  | @cond inner test yes htest hyes ih =>
    cases inner with
    | true =>
      refine ⟨closed, ?_⟩
      have hwhole := Spine.condElse htest hyes hno
      simpa using hwhole
    | false =>
      obtain ⟨closed', hinner⟩ := ih rfl
      have hwhole := Spine.cond htest hinner
      exact ⟨false, by simpa using hwhole⟩
  | condElse htest hyes hno' _ ih =>
    obtain ⟨closed', hinner⟩ := ih hopen
    have hwhole := Spine.condElse htest hyes hinner
    exact ⟨closed', by simpa using hwhole⟩
  | loop htest hbody ih =>
    obtain ⟨closed', hinner⟩ := ih hopen
    have hwhole := Spine.loop htest hinner
    exact ⟨closed', by simpa using hwhole⟩

theorem exists_spine_condElse {test yes no : List TokenKind} {closed closed' : Bool}
    (htest : ReadBy expr exprGoesOn test fun _ => True) (hyes : Spine closed yes)
    (hno : Spine closed' no) : ∃ closed'', Spine closed''
      (.keyword .kIf :: .symbol .lparen :: test ++ .symbol .rparen :: yes ++
        .keyword .kElse :: no) := by
  cases closed with
  | true => exact ⟨closed', .condElse htest hyes hno⟩
  | false =>
    obtain ⟨inner, hinner⟩ := hyes.graft hno
    have hwhole := Spine.cond htest hinner
    exact ⟨false, by simpa using hwhole⟩

theorem Spine.readBy {closed : Bool} {ts : List TokenKind} (h : Spine closed ts) :
    ReadBy stmt (stmtGoesOn closed) ts fun _ => True := by
  induction h with
  | plain h => exact h
  | @cond closed test yes htest _ ih =>
    intro k rest hk
    have helse : k.tag ≠ kw .kElse := tag_ne_of_not_mem hk (by decide)
    have hyes : k.tag ∉ stmtGoesOn closed := by
      cases closed with
      | true => exact List.not_mem_nil
      | false => exact hk
    apply eventually_of_succ
    filter_upwards [htest (.symbol .rparen) (yes ++ k :: rest) (by decide), ih k rest hyes] with
      fuel htest hyes
    simp only [List.cons_append, List.append_assoc]
    rw [stmt]
    apply reads_peek.bind
    intro start _
    apply Reads.missing (by decide)
    apply Reads.found rfl
    apply (reads_keyword _).bind
    intro _ _
    apply (reads_symbol _).bind
    intro _ _
    apply htest.bind
    intro _ _
    apply (reads_symbol _).bind
    intro _ _
    apply hyes.bind
    intro _ _
    apply Reads.missing helse
    exact reads_pure trivial
  | @condElse closed test yes no htest _ _ ihyes ihno =>
    intro k rest hk
    apply eventually_of_succ
    filter_upwards [htest (.symbol .rparen) (yes ++ .keyword .kElse :: (no ++ k :: rest))
        (by decide), ihyes (.keyword .kElse) (no ++ k :: rest) List.not_mem_nil, ihno k rest hk]
      with fuel htest hyes hno
    simp only [List.cons_append, List.append_assoc]
    rw [stmt]
    apply reads_peek.bind
    intro start _
    apply Reads.missing (by decide)
    apply Reads.found rfl
    apply (reads_keyword _).bind
    intro _ _
    apply (reads_symbol _).bind
    intro _ _
    apply htest.bind
    intro _ _
    apply (reads_symbol _).bind
    intro _ _
    apply hyes.bind
    intro _ _
    apply Reads.found rfl
    apply (reads_keyword _).bind
    intro _ _
    apply hno.bind
    intro _ _
    exact reads_pure trivial
  | @loop closed test body htest _ ih =>
    intro k rest hk
    apply eventually_of_succ
    filter_upwards [htest (.symbol .rparen) (body ++ k :: rest) (by decide), ih k rest hk] with
      fuel htest hbody
    simp only [List.cons_append, List.append_assoc]
    rw [stmt]
    apply reads_peek.bind
    intro start _
    apply Reads.missing (by decide)
    apply Reads.missing (by decide)
    apply Reads.found rfl
    apply (reads_keyword _).bind
    intro _ _
    apply (reads_symbol _).bind
    intro _ _
    apply htest.bind
    intro _ _
    apply (reads_symbol _).bind
    intro _ _
    apply hbody.bind
    intro _ _
    exact reads_pure trivial

theorem Spine.readBy_else {closed : Bool} {ts : List TokenKind} (h : Spine closed ts) :
    ReadBy stmt [kw .kElse] ts fun _ => True := by
  intro k rest hk
  apply h.readBy k rest
  cases closed with
  | true => exact List.not_mem_nil
  | false => exact hk

private theorem exists_flatten {forbidden : List Tag} {parts : List (List TokenKind)}
    (hparts : ∀ part ∈ parts, ∃ k ks, part = k :: ks ∧ k.tag ∉ forbidden) {k : TokenKind}
    (rest : List TokenKind) (hk : k.tag ∉ forbidden) :
    ∃ k' rest', parts.flatten ++ k :: rest = k' :: rest' ∧ k'.tag ∉ forbidden := by
  cases parts with
  | nil => exact ⟨k, rest, rfl, hk⟩
  | cons part parts =>
    obtain ⟨k', ks, rfl, hk'⟩ := hparts part (by simp)
    exact ⟨k', _, rfl, hk'⟩

private theorem Derives.exists_stmtTag_of_not_mem {ts : List TokenKind} (h : Derives .stmt ts)
    (tags : List Tag) (hdisjoint : ∀ tag ∈ stmtTags, tag ∉ tags) :
    ∃ k ks, ts = k :: ks ∧ k.tag ∉ tags := by
  obtain ⟨k, ks, hks, htag⟩ := h.exists_stmtTag
  exact ⟨k, ks, hks, hdisjoint _ htag⟩

theorem reads_stmts {parts : List (List TokenKind)} (hstart : ∀ part ∈ parts, Derives .stmt part)
    (hparts : ∀ part ∈ parts, ReadBy stmt [kw .kElse] part fun _ => True)
    (rest : List TokenKind) :
    ∀ᶠ fuel in atTop, Reads (stmts fuel) (parts.flatten ++ .symbol .rcurly :: rest)
      (.symbol .rcurly :: rest) fun _ => True := by
  induction parts with
  | nil =>
    apply eventually_of_forall_succ
    intro fuel
    rw [stmts]
    exact Reads.found rfl (reads_pure trivial)
  | cons part parts ih =>
    obtain ⟨hpart, hparts⟩ := List.forall_mem_cons.mp hparts
    obtain ⟨hfirst, hstart⟩ := List.forall_mem_cons.mp hstart
    obtain ⟨first, ks, hks, htag⟩ := hfirst.exists_stmtTag_of_not_mem [sym .rcurly] (by decide)
    have hfollow : ∀ part ∈ parts, ∃ k ks, part = k :: ks ∧ k.tag ∉ [kw .kElse] :=
      fun part hmem => (hstart part hmem).exists_stmtTag_of_not_mem _ (by decide)
    obtain ⟨k, rest', hnext, hk⟩ := exists_flatten hfollow rest (k := .symbol .rcurly) (by decide)
    apply eventually_of_succ
    filter_upwards [hpart k rest' hk, ih hstart hparts] with fuel hpart hrest
    have htokens : (part :: parts).flatten ++ .symbol .rcurly :: rest =
        first :: (ks ++ k :: rest') := by
      rw [List.flatten_cons, List.append_assoc, hnext, hks, List.cons_append]
    rw [stmts, htokens]
    apply Reads.missing (tag_ne_of_not_mem htag (by decide))
    rw [hks] at hpart
    apply hpart.bind
    intro _ _
    rw [← hnext]
    apply hrest.bind
    intro _ _
    exact reads_pure trivial

theorem readBy_block {parts : List (List TokenKind)} (hstart : ∀ part ∈ parts, Derives .stmt part)
    (hparts : ∀ part ∈ parts, ReadBy stmt [kw .kElse] part fun _ => True) :
    ReadBy block [] (.symbol .lcurly :: parts.flatten ++ [.symbol .rcurly]) fun _ => True := by
  intro k rest _
  apply eventually_of_succ
  filter_upwards [reads_stmts hstart hparts (k :: rest)] with fuel hstmts
  simp only [List.cons_append, List.append_assoc, List.nil_append]
  rw [block]
  apply (reads_symbol _).bind
  intro _ _
  apply hstmts.bind
  intro _ _
  apply (reads_symbol _).bind
  intro _ _
  exact reads_pure trivial

section

variable {written : List (String × List TokenKind)}
  (hitems : ∀ item ∈ written, ReadBy type [] item.2 fun _ => True)
  (hnames : (written.map Prod.fst).Nodup)

include hitems hnames

theorem readBy_objectDef (name : String) : ReadBy definition []
    (.keyword .kDef :: .keyword .kObject :: .ident name :: .symbol .lcurly ::
      listed (written.map itemKinds) ++ [.symbol .rcurly]) fun _ => True := by
  have hclose : Symbol.rcurly ≠ .comma := by decide
  intro k rest _
  filter_upwards [reads_items hclose hitems (k :: rest)] with fuel hfields
  simp only [List.cons_append, List.append_assoc, List.nil_append]
  unfold definition
  apply (reads_keyword _).bind
  intro _ _
  apply (reads_take?_some rfl).bind
  rintro _ ⟨_, rfl⟩
  apply (reads_ident name).bind
  rintro ⟨_, pos⟩ _
  apply (reads_symbol _).bind
  intro _ _
  apply hfields.bind
  intro fields hfound
  apply (reads_symbol _).bind
  intro _ _
  rw [← hfound] at hnames
  apply (reads_distinct hnames).bind
  intro _ _
  exact reads_pure trivial

omit hitems in
private theorem reads_func (name : String) {ret : List TokenKind} {k : TokenKind}
    {rest body : List TokenKind} {fuel : Nat} {Q : Option TypeExpr → Prop}
    (hparams : Reads (items fuel (sym .rparen))
      (listed (written.map itemKinds) ++ .symbol .rparen :: (ret ++ (body ++ k :: rest)))
      (.symbol .rparen :: (ret ++ (body ++ k :: rest)))
      fun found => found.map Item.name = written.map Prod.fst)
    (hret : Reads (optional (sym .colon) (type fuel)) (ret ++ (body ++ k :: rest))
      (body ++ k :: rest) Q)
    (hbody : Reads (block fuel) (body ++ k :: rest) (k :: rest) fun _ => True) :
    Reads (definition fuel)
      (.keyword .kDef :: .keyword .kFunc :: .ident name :: .symbol .lparen ::
        (listed (written.map itemKinds) ++ .symbol .rparen :: (ret ++ (body ++ k :: rest))))
      (k :: rest) fun _ => True := by
  unfold definition
  apply (reads_keyword _).bind
  intro _ _
  apply (reads_take?_none (by decide)).bind
  rintro _ rfl
  apply (reads_take?_some rfl).bind
  rintro _ ⟨_, rfl⟩
  apply (reads_ident name).bind
  rintro ⟨_, pos⟩ _
  apply (reads_symbol _).bind
  intro _ _
  apply hparams.bind
  intro params hfound
  apply (reads_symbol _).bind
  intro _ _
  rw [← hfound] at hnames
  apply (reads_distinct hnames).bind
  intro _ _
  apply hret.bind
  intro _ _
  apply hbody.bind
  intro _ _
  exact reads_pure trivial

theorem readBy_funcDef (name : String) {body : List TokenKind} (hstart : Derives .block body)
    (hbody : ReadBy block [] body fun _ => True) : ReadBy definition []
    (.keyword .kDef :: .keyword .kFunc :: .ident name :: .symbol .lparen ::
      listed (written.map itemKinds) ++ .symbol .rparen :: body) fun _ => True := by
  have hclose : Symbol.rparen ≠ .comma := by decide
  obtain ⟨ks, rfl⟩ := hstart.exists_lcurly
  intro k rest hk
  filter_upwards [reads_items hclose hitems (.symbol .lcurly :: ks ++ k :: rest), hbody k rest hk]
    with fuel hparams hbody
  have hret : Reads (optional (sym .colon) (type fuel)) ([] ++ (.symbol .lcurly :: ks ++ k :: rest))
      (.symbol .lcurly :: ks ++ k :: rest) fun found => found = none :=
    reads_optional_none (by decide)
  have hwhole := reads_func hnames name hparams hret hbody
  simpa using hwhole

theorem readBy_funcDefType (name : String) {ret body : List TokenKind}
    (hret : ReadBy type [] ret fun _ => True) (hstart : Derives .block body)
    (hbody : ReadBy block [] body fun _ => True) : ReadBy definition []
    (.keyword .kDef :: .keyword .kFunc :: .ident name :: .symbol .lparen ::
      listed (written.map itemKinds) ++ .symbol .rparen :: .symbol .colon :: ret ++ body)
    fun _ => True := by
  have hclose : Symbol.rparen ≠ .comma := by decide
  obtain ⟨ks, rfl⟩ := hstart.exists_lcurly
  intro k rest hk
  have hparams := reads_items hclose hitems
    (.symbol .colon :: ret ++ (.symbol .lcurly :: ks ++ k :: rest))
  filter_upwards [hparams, hret (.symbol .lcurly) (ks ++ k :: rest) (by simp), hbody k rest hk]
    with fuel hparams hret hbody
  have hwhole := reads_func hnames name hparams (reads_optional_some hret) hbody
  simpa using hwhole

end

/-- What the parser makes of the phrases of a category. -/
def Read : Category → List TokenKind → Prop
  | .type, ts => ReadBy type [] ts fun _ => True
  | .atom, ts => ReadBy atom atomGoesOn ts fun _ => True
  | .expr, ts => ReadBy expr exprGoesOn ts fun _ => True
  | .block, ts => ReadBy block [] ts fun _ => True
  | .stmt, ts => ∃ closed, Spine closed ts
  | .definition, ts => ReadBy definition [] ts fun _ => True
  | .part, ts => Derives .definition ts ∧ ReadBy definition [] ts (fun _ => True) ∨
      Derives .stmt ts ∧ ReadBy stmt [kw .kElse] ts fun _ => True
  | .module, ts => ∀ name, ∀ᶠ fuel in atTop, Reads (module fuel name) ts [] fun _ => True

theorem Derives.exists_def {ts : List TokenKind} (h : Derives .definition ts) :
    ∃ ks, ts = .keyword .kDef :: ks := by
  cases h <;> exact ⟨_, rfl⟩

/-- A part of a module starts with neither the end nor an `else`. -/
private theorem Read.exists_tag {ts : List TokenKind} (h : Read .part ts) :
    ∃ k ks, ts = k :: ks ∧ k.tag ∉ [kw .kElse, .eof] := by
  rcases h with ⟨hdef, -⟩ | ⟨hstmt, -⟩
  · obtain ⟨ks, rfl⟩ := hdef.exists_def
    exact ⟨_, ks, rfl, by decide⟩
  · exact hstmt.exists_stmtTag_of_not_mem _ (by decide)

theorem reads_parts {written : List (List TokenKind)} (h : ∀ part ∈ written, Read .part part) :
    ∀ᶠ fuel in atTop, Reads (parts fuel) (written.flatten ++ [.eof]) [.eof] fun _ => True := by
  induction written with
  | nil =>
    apply eventually_of_forall_succ
    intro fuel
    rw [parts]
    exact Reads.found rfl (reads_pure trivial)
  | cons part written ih =>
    obtain ⟨hpart, hwritten⟩ := List.forall_mem_cons.mp h
    obtain ⟨first, ks, hks, htag⟩ := hpart.exists_tag
    have hfollow : ∀ part ∈ written, ∃ k ks, part = k :: ks ∧ k.tag ∉ [kw .kElse] := by
      intro part hmem
      obtain ⟨k, ks, hks, htag⟩ := (hwritten part hmem).exists_tag
      exact ⟨k, ks, hks, fun hmem => htag (by simp_all)⟩
    obtain ⟨k, rest, hnext, hk⟩ := exists_flatten hfollow [] (k := .eof) (by decide)
    have htokens : (part :: written).flatten ++ [.eof] = first :: (ks ++ k :: rest) := by
      rw [List.flatten_cons, List.append_assoc, hnext, hks, List.cons_append]
    rw [htokens]
    apply eventually_of_succ
    rcases hpart with ⟨hdef, hpart⟩ | ⟨hstmt, hpart⟩
    · filter_upwards [hpart k rest List.not_mem_nil, ih hwritten] with fuel hpart hrest
      obtain ⟨ks', rfl⟩ := hdef.exists_def
      cases hks
      rw [parts]
      apply Reads.missing (by decide)
      apply Reads.found rfl
      apply hpart.bind
      intro _ _
      rw [← hnext]
      apply hrest.bind
      intro _ _
      exact reads_pure trivial
    · filter_upwards [hpart k rest hk, ih hwritten] with fuel hpart hrest
      obtain ⟨first', ks', hks', htag'⟩ := hstmt.exists_stmtTag_of_not_mem [kw .kDef] (by decide)
      cases hks.symm.trans hks'
      rw [hks] at hpart
      rw [parts]
      apply Reads.missing (tag_ne_of_not_mem htag (by decide))
      apply Reads.missing (tag_ne_of_not_mem htag' (by decide))
      apply hpart.bind
      intro _ _
      rw [← hnext]
      apply hrest.bind
      intro _ _
      exact reads_pure trivial

theorem reads_module {written : List (List TokenKind)} (h : ∀ part ∈ written, Read .part part)
    (name : String) :
    ∀ᶠ fuel in atTop, Reads (module fuel name) (written.flatten ++ [.eof]) [] fun _ => True := by
  filter_upwards [reads_parts h] with fuel hparts
  unfold module
  apply hparts.bind
  rintro ⟨defs, stmts⟩ _
  apply (reads_expect rfl).bind
  intro _ _
  exact reads_pure trivial

/-- Every phrase is read by the rule of its category. -/
theorem Derives.read {category : Category} {ts : List TokenKind} (h : Derives category ts) :
    Read category ts := by
  induction h with
  | typeName name => exact readBy_typeName name
  | arrayType _ ih => exact readBy_arrayType ih
  | tupleType parts hlength _ ih => exact readBy_tupleType hlength ih
  | recordType items hlength _ hnames ih => exact readBy_recordType hlength ih hnames
  | integer v => exact readBy_literal (by simp [literalTags, TokenKind.tag])
  | text s => exact readBy_literal (by simp [literalTags, TokenKind.tag])
  | char c => exact readBy_literal (by simp [literalTags, TokenKind.tag])
  | boolTrue => exact readBy_literal (by decide)
  | boolFalse => exact readBy_literal (by decide)
  | paren parts hparts ih => exact readBy_paren hparts ih
  | array parts hparts ih => exact readBy_array hparts ih
  | default _ ih => exact readBy_default ih
  | ident name => exact (readBy_ident name).mono fun _ _ => trivial
  | call name args hargs ih => exact readBy_call hargs ih name
  | object name inits _ ih => exact readBy_object name ih
  | expr _ _ hnames ihfirst ihmore => exact readBy_expr ihfirst ihmore hnames
  | declare name _ ih => exact ⟨true, .plain (readBy_declare ih name)⟩
  | declareInit name _ _ ihtype ihinit =>
    exact ⟨true, .plain (readBy_declareInit ihtype ihinit name)⟩
  | init name _ ih => exact ⟨true, .plain (readBy_initStmt ih name)⟩
  | cond _ _ ihtest ihyes =>
    obtain ⟨closed, hyes⟩ := ihyes
    exact ⟨false, .cond ihtest hyes⟩
  | condElse _ _ _ ihtest ihyes ihno =>
    obtain ⟨closed, hyes⟩ := ihyes
    obtain ⟨closed', hno⟩ := ihno
    exact exists_spine_condElse ihtest hyes hno
  | loop _ _ ihtest ihbody =>
    obtain ⟨closed, hbody⟩ := ihbody
    exact ⟨closed, .loop ihtest hbody⟩
  | blockStmt hbody ih => exact ⟨true, .plain (readBy_blockStmt hbody ih)⟩
  | ret => exact ⟨true, .plain readBy_ret⟩
  | retValue hvalue ih => exact ⟨true, .plain (readBy_retValue ih hvalue)⟩
  | exprStmt he ih => exact ⟨true, .plain (readBy_exprStmt ih he)⟩
  | block stmts hstmts ih =>
    apply readBy_block hstmts
    intro part hpart
    obtain ⟨closed, hspine⟩ := ih part hpart
    exact hspine.readBy_else
  | objectDef name items _ hnames ih => exact readBy_objectDef ih hnames name
  | funcDef name items _ hnames hbody ihitems ihbody =>
    exact readBy_funcDef ihitems hnames name hbody ihbody
  | funcDefType name items _ hnames _ hbody ihitems ihret ihbody =>
    exact readBy_funcDefType ihitems hnames name ihret hbody ihbody
  | defPart hpart ih => exact .inl ⟨hpart, ih⟩
  | stmtPart hpart ih =>
    obtain ⟨closed, hspine⟩ := ih
    exact .inr ⟨hpart, hspine.readBy_else⟩
  | module parts _ ih => exact reads_module ih

end Grammar

theorem EndsOnce.kinds {tokens : List Token} (h : EndsOnce tokens) :
    ∃ before, tokens.map Token.kind = before ++ [.eof] ∧ .eof ∉ before := by
  obtain ⟨before, last, rfl, hlast, hbefore⟩ := h
  refine ⟨before.map Token.kind, by simp [hlast], fun hmem => ?_⟩
  obtain ⟨t, ht, hkind⟩ := List.mem_map.mp hmem
  exact hbefore t ht hkind

private theorem eq_nil_of_endsOnce {before between rest : List TokenKind}
    (h : before ++ [.eof] = between ++ [.eof] ++ rest) (hbefore : .eof ∉ before) : rest = [] := by
  rcases List.eq_nil_or_concat rest with rfl | ⟨rest, last, rfl⟩
  · rfl
  · rw [List.concat_eq_append, ← List.append_assoc] at h
    have heq := (List.append_inj' h rfl).1
    exact absurd (heq ▸ by simp) hbefore

/-- The parser reads a stream as a module exactly if the stream is derived by the grammar. -/
theorem exists_module_iff {tokens : List Token} (h : EndsOnce tokens) (name : String) :
    (∃ m, Module.ofTokens name tokens = .ok m) ↔
      Grammar.Derives .module ((plainTokens tokens).map Token.kind) := by
  rw [Module.ofTokens, Cursor.ofTokens_of_endsOnce h]
  have hkinds : Cursor.kinds ⟨tokens, []⟩ = (plainTokens tokens).map Token.kind := rfl
  constructor
  · rintro ⟨m, hm⟩
    simp only [Cursor.parseModule] at hm
    split at hm
    · rename_i m' c hrun
      obtain ⟨ts, hts, hderives⟩ := Grammar.takes_module _ name _ _ _ hrun
      obtain ⟨before, hbefore, heof⟩ := h.plain.kinds
      rw [hkinds, hbefore] at hts
      have hrest : c.kinds = [] := by
        cases hderives with
        | module parts _ => exact eq_nil_of_endsOnce hts heof
      rw [hbefore, hts, hrest, List.append_nil]
      exact hderives
    · cases hm
  · intro hderives
    have hlength : (plainTokens tokens).length ≤ tokens.length := List.length_filter_le _ _
    have hread : ∀ᶠ fuel in atTop, Parse.Reads (Grammar.module fuel name)
        ((plainTokens tokens).map Token.kind) [] fun _ => True := hderives.read name
    obtain ⟨fuel, hreads, hfuel⟩ :=
      (hread.and (eventually_ge_atTop (3 * (plainTokens tokens).length + 3))).exists
    obtain ⟨m, c, hrun, -, -⟩ := hreads ⟨tokens, []⟩ hkinds
    -- the stream's own fuel gives what any larger fuel gives
    have hagrees : Parse.Agrees (Parse.Ready (plainTokens tokens).length)
        (Grammar.module fuel name) (Grammar.module (Grammar.fuelFor tokens.length) name)
        fun _ _ => True :=
      Grammar.agrees_module hfuel (by unfold Grammar.fuelFor; omega) name
    rcases hagrees ⟨tokens, []⟩ ⟨tokens, []⟩ ⟨rfl, rfl⟩ ⟨h.plain, Nat.le_refl _⟩ with
      ⟨m', c', d', -, hown, -, -⟩ | ⟨e, c', d', herror, -⟩
    · exact ⟨m', by simp only [Cursor.parseModule, hown]⟩
    · rw [hrun] at herror
      cases herror

private def placed (kinds : List TokenKind) : List Token := kinds.map fun k => ⟨k, ⟨1, 1⟩⟩

/-- A conditional in another one, with a comment and an assignment to names in parentheses. -/
def nestedTokens : List Token :=
  placed [.keyword .kIf, .symbol .lparen, .ident "a", .symbol .rparen, .comment "nearest",
    .keyword .kIf, .symbol .lparen, .ident "b", .symbol .rparen, .ident "x", .symbol .equal,
    .symbol .lparen, .ident "y", .symbol .rparen, .symbol .equal, .integer 1, .symbol .plus,
    .ident "z", .symbol .semicolon, .keyword .kElse, .symbol .lcurly, .symbol .rcurly, .eof]

def strayTokens : List Token :=
  placed [.integer 1, .symbol .plus, .ident "x", .symbol .equal, .ident "y", .symbol .semicolon,
    .eof]

theorem exists_module_iff_tokens : EndsOnce nestedTokens ∧ EndsOnce strayTokens ∧
    Grammar.Derives .module ((plainTokens nestedTokens).map Token.kind) ∧
      ¬ Grammar.Derives .module ((plainTokens strayTokens).map Token.kind) := by
  have hnested : EndsOnce nestedTokens :=
    ⟨nestedTokens.dropLast, ⟨.eof, ⟨1, 1⟩⟩, by decide, rfl, by decide⟩
  have hstray : EndsOnce strayTokens :=
    ⟨strayTokens.dropLast, ⟨.eof, ⟨1, 1⟩⟩, by decide, rfl, by decide⟩
  refine ⟨hnested, hstray, (exists_module_iff hnested "m").mp ⟨_, rfl⟩, fun hderives => ?_⟩
  obtain ⟨m, hm⟩ := (exists_module_iff hstray "m").mpr hderives
  cases hm

end EdeLang
