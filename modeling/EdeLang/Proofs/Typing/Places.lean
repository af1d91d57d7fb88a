import EdeLang.Proofs.Syntax.Places
import EdeLang.Typing.Check

/-!
# Places of type errors

A check changes no place of a node, and the place of a diagnostic is that of a node or of a name
that a node declares. Where control falls off a body, the place is that of a statement in it.
-/

namespace EdeLang

namespace Visit

variable {α β γ δ : Type} {P : Pos → Prop} {Q : α → Prop} {R : γ → Prop}

/-- What the visit leaves is as promised, and its diagnostic is a type error at such a place. -/
def Points (P : Pos → Prop) (Q : α → Prop) (v : Visit α β) : Prop :=
  Q v.node ∧ ∀ d, v.found = .error (.diagnostic d) → ∃ e : TypeError, ∃ pos, P pos ∧ d = e.at pos

theorem points_ok {node : α} {b : β} (h : Q node) : Points P Q ⟨node, .ok b⟩ :=
  ⟨h, fun d hd => by cases hd⟩

theorem points_diagnostic {node : α} {e : TypeError} {pos : Pos} (h : Q node) (hpos : P pos) :
    Points P Q (⟨node, .error (.diagnostic (e.at pos))⟩ : Visit α β) := by
  refine ⟨h, fun d hd => ⟨e, pos, hpos, ?_⟩⟩
  cases hd
  rfl

theorem points_fail {node : α} {e : TypeError} {pos : Pos} (h : Q node) (hpos : P pos) :
    Points P Q (fail node e pos : Visit α β) := points_diagnostic h hpos

theorem Points.andThen {v : Visit α β} {whole : α → γ} {next : α → β → Visit γ δ}
    (hv : v.Points P Q) (hwhole : ∀ a, Q a → R (whole a))
    (hnext : ∀ a b, Q a → (next a b).Points P R) : (v.andThen whole next).Points P R := by
  obtain ⟨node, found⟩ := v
  cases found with
  | error e =>
    refine ⟨hwhole node hv.1, fun d hd => ?_⟩
    cases hd
    exact hv.2 d rfl
  | ok b => exact hnext node b hv.1

theorem points_settle {info : Info} {whole : Info → γ} {type : Ty}
    (h : ∀ i : Info, i.pos = info.pos → R (whole i)) : (settle info whole type).Points P R := by
  unfold settle
  split
  · exact ⟨h info rfl, fun d hd => by cases hd⟩
  · exact points_ok (h _ rfl)

theorem points_settle_andThen {info : Info} {whole : Info → γ} {type : Ty} {result : Ty → δ}
    (h : ∀ i : Info, i.pos = info.pos → R (whole i)) :
    ((settle info whole type).andThen (fun y => y) fun y t => ⟨y, .ok (result t)⟩).Points P R := by
  have hsettle : (settle info whole type).Points P R := points_settle h
  exact hsettle.andThen (fun _ hy => hy) fun _ _ hy => points_ok hy

theorem points_optional {visit : α → Visit α β} {nodes : α → List Node}
    (h : ∀ a, Node.Placed P (nodes a) → (visit a).Points P fun a => Node.Placed P (nodes a))
    {o : Option α} (ho : Node.Placed P (o.elim [] nodes)) :
    (optional visit o).Points P fun o => Node.Placed P (o.elim [] nodes) := by
  cases o with
  | none => exact points_ok ho
  | some a =>
    rw [optional]
    refine (h a ho).andThen (fun _ ha => ha) ?_
    intro a b ha
    exact points_ok ha

end Visit

namespace FlowGraph

mutual

theorem mem_nodes_of_link (s : Stmt) (base : Nat) (next : Edge) :
    ∀ n ∈ (link base next s).1, .stmt n.1 ∈ s.nodes := by
  cases s with
  | block info stmts =>
    exact fun n hn => List.mem_cons_of_mem _ (mem_nodes_of_linkAll stmts base next n hn)
  | cond info test yes no =>
    have hyes := mem_nodes_of_link yes (base + 1) next
    cases no with
    | none =>
      simp only [link, Stmt.nodes, List.forall_mem_cons]
      exact ⟨List.mem_cons_self, fun n hn => by simp [hyes n hn]⟩
    | some no =>
      have hno := mem_nodes_of_link no (base + 1 + (link (base + 1) next yes).1.length) next
      simp only [link, Stmt.nodes, List.forall_mem_cons, List.forall_mem_append]
      exact ⟨List.mem_cons_self, fun n hn => by simp [hyes n hn], fun n hn => by simp [hno n hn]⟩
  | loop info test body =>
    have hbody := mem_nodes_of_link body (base + 1) (.node base)
    simp only [link, Stmt.nodes, List.forall_mem_cons]
    exact ⟨List.mem_cons_self, fun n hn => by simp [hbody n hn]⟩
  | ret info value | var info name type init | expr info e => simp [link, Stmt.nodes]
termination_by structural s

theorem mem_nodes_of_linkAll (ss : List Stmt) (base : Nat) (next : Edge) :
    ∀ n ∈ (linkAll base next ss).1, .stmt n.1 ∈ Stmt.nodesAll ss := by
  cases ss with
  | nil => simp [linkAll]
  | cons s ss =>
    have hlater := mem_nodes_of_linkAll ss base next
    have hfirst := mem_nodes_of_link s (base + (linkAll base next ss).1.length)
      (linkAll base next ss).2
    simp only [linkAll, Stmt.nodesAll, List.forall_mem_append]
    exact ⟨fun n hn => by simp [hlater n hn], fun n hn => by simp [hfirst n hn]⟩
termination_by structural ss

end

end FlowGraph

theorem Stmt.place_of_fallsOff? {P : Pos → Prop} {body : Stmt} {pos : Pos}
    (hbody : Node.Placed P body.nodes) (h : body.fallsOff? = some pos) : P pos := by
  unfold Stmt.fallsOff? FlowGraph.fallsOff? at h
  split at h
  · cases h
    exact body.place_of_placed hbody
  · obtain ⟨i, -, hleak⟩ := List.exists_of_findSome?_eq_some h
    unfold FlowGraph.leak? at hleak
    split at hleak
    · next stmt succ hnode =>
      split_ifs at hleak
      cases hleak
      have hmem := FlowGraph.mem_nodes_of_link body 0 .exit _ (List.mem_of_getElem? hnode)
      exact hbody _ hmem stmt.pos (by simp [Node.places])
    · cases hleak

namespace Scopes

open Visit

variable {P : Pos → Prop}

attribute [local simp] Node.places TypeExpr.info Expr.pos Expr.info Stmt.pos Stmt.info
  TypeExpr.nodes TypeExpr.nodesAll TypeExpr.nodesItems Expr.nodes Expr.nodesAll Expr.nodesInits
  Stmt.nodes Stmt.nodesAll Func.nodes Def.nodes Def.nodesAll Module.nodes

def ItemsPlaced (P : Pos → Prop) (items : List (Item TypeExpr)) : Prop :=
  (∀ i ∈ items, P i.pos) ∧ Node.Placed P (TypeExpr.nodesItems items)

mutual

theorem resolve_points (s : Scopes) (id : Nat) (t : TypeExpr) (h : Node.Placed P t.nodes) :
    (s.resolve id t).Points P fun t => Node.Placed P t.nodes := by
  cases t with
  | name info name =>
    have hpos : P info.pos := by simpa using h
    rw [resolve]
    split
    · exact points_fail h hpos
    · split
      · exact points_settle fun i hi => by simp [hi, hpos]
      · exact points_fail h hpos
  | array info elem =>
    obtain ⟨hpos, helem⟩ : P info.pos ∧ Node.Placed P elem.nodes := by simpa using h
    rw [resolve]
    refine (resolve_points s id elem helem).andThen (fun a ha => by simp [hpos, ha]) ?_
    intro elem type helem
    exact points_settle fun i hi => by simp [hi, hpos, helem]
  | tuple info elems =>
    obtain ⟨hpos, helems⟩ : P info.pos ∧ Node.Placed P (TypeExpr.nodesAll elems) := by
      simpa using h
    rw [resolve]
    refine (resolveAll_points s id elems helems).andThen (fun a ha => by simp [hpos, ha]) ?_
    intro elems types helems
    exact points_settle fun i hi => by simp [hi, hpos, helems]
  | record info items =>
    obtain ⟨hpos, hitems⟩ : P info.pos ∧ ItemsPlaced P items := by
      simpa [ItemsPlaced, and_assoc] using h
    rw [resolve]
    refine (resolveItems_points s id items hitems).andThen (fun a ha => ?_) ?_
    · simpa [hpos, ItemsPlaced] using ha
    · intro items fields hitems
      exact points_settle fun i hi => by simpa [hi, hpos, ItemsPlaced] using hitems
termination_by structural t

theorem resolveAll_points (s : Scopes) (id : Nat) (ts : List TypeExpr)
    (h : Node.Placed P (TypeExpr.nodesAll ts)) :
    (s.resolveAll id ts).Points P fun ts => Node.Placed P (TypeExpr.nodesAll ts) := by
  cases ts with
  | nil => exact points_ok h
  | cons t ts =>
    obtain ⟨ht, hts⟩ : Node.Placed P t.nodes ∧ Node.Placed P (TypeExpr.nodesAll ts) := by
      simpa using h
    rw [resolveAll]
    refine (resolve_points s id t ht).andThen (fun a ha => by simp [ha, hts]) ?_
    intro t type ht
    refine (resolveAll_points s id ts hts).andThen (fun a ha => by simp [ht, ha]) ?_
    intro ts types hts
    exact points_ok (by simp [ht, hts])
termination_by structural ts

theorem resolveItems_points (s : Scopes) (id : Nat) (items : List (Item TypeExpr))
    (h : ItemsPlaced P items) : (s.resolveItems id items).Points P (ItemsPlaced P) := by
  cases items with
  | nil => exact points_ok h
  | cons item items =>
    obtain ⟨pos, name, t⟩ := item
    obtain ⟨hpos, ht, hitems⟩ : P pos ∧ Node.Placed P t.nodes ∧ ItemsPlaced P items := by
      simp only [ItemsPlaced, List.forall_mem_cons, TypeExpr.nodesItems, Node.placed_append] at h
      exact ⟨h.1.1, h.2.1, h.1.2, h.2.2⟩
    have hcons : ∀ {t items}, Node.Placed P t.nodes → ItemsPlaced P items →
        ItemsPlaced P (⟨pos, name, t⟩ :: items) := fun ht hitems =>
      ⟨List.forall_mem_cons.mpr ⟨hpos, hitems.1⟩, by simp [ht, hitems.2]⟩
    rw [resolveItems]
    refine (resolve_points s id t ht).andThen (fun a ha => hcons ha hitems) ?_
    intro t type ht
    refine (resolveItems_points s id items hitems).andThen (fun a ha => hcons ht ha) ?_
    intro items fields hitems
    exact points_ok (hcons ht hitems)
termination_by structural items

end

mutual

theorem checkExpr_points (s : Scopes) (id : Nat) (e : Expr) (h : Node.Placed P e.nodes) :
    (s.checkExpr id e).Points P fun e => Node.Placed P e.nodes := by
  have hpos := Expr.place_of_placed h
  cases e with
  | literal info value =>
    rw [checkExpr]
    exact points_settle fun i hi => by simpa [hi] using hpos
  | ident info name =>
    rw [checkExpr]
    split
    · exact points_fail h hpos
    · exact points_settle fun i hi => by simpa [hi] using hpos
  | binop info op left right =>
    obtain ⟨hpos, hleft, hright⟩ : P info.pos ∧ Node.Placed P left.nodes ∧
        Node.Placed P right.nodes := by simpa using h
    rw [checkExpr]
    refine (checkExpr_points s id left hleft).andThen (fun a ha => by simp [hpos, ha, hright]) ?_
    intro left l hleft
    refine (checkExpr_points s id right hright).andThen (fun a ha => by simp [hpos, hleft, ha]) ?_
    intro right r hright
    split
    · exact points_settle fun i hi => by simp [hi, hpos, hleft, hright]
    · exact points_fail (by simp [hpos, hleft, hright]) hpos
  | assign info name value =>
    obtain ⟨hpos, hvalue⟩ : P info.pos ∧ Node.Placed P value.nodes := by simpa using h
    rw [checkExpr]
    split
    · exact points_fail h hpos
    · refine (checkExpr_points s id value hvalue).andThen (fun a ha => by simp [hpos, ha]) ?_
      intro value found hvalue
      split
      · exact points_settle fun i hi => by simp [hi, hpos, hvalue]
      · exact points_fail (by simp [hpos, hvalue]) hpos
  | array info elems =>
    obtain ⟨hpos, helems⟩ : P info.pos ∧ Node.Placed P (Expr.nodesAll elems) := by simpa using h
    rw [checkExpr]
    refine (checkElems_points s id none elems helems).andThen (fun a ha => by simp [hpos, ha]) ?_
    intro elems type helems
    split
    · exact points_settle fun i hi => by simp [hi, hpos, helems]
    · exact points_fail (by simp [hpos, helems]) hpos
  | tuple info elems =>
    obtain ⟨hpos, helems⟩ : P info.pos ∧ Node.Placed P (Expr.nodesAll elems) := by simpa using h
    rw [checkExpr]
    refine (checkExprs_points s id elems helems).andThen (fun a ha => by simp [hpos, ha]) ?_
    intro elems types helems
    exact points_settle fun i hi => by simp [hi, hpos, helems]
  | object info name inits =>
    obtain ⟨hpos, hinits⟩ : P info.pos ∧ Node.Placed P (Expr.nodesInits inits) := by simpa using h
    rw [checkExpr]
    split
    · exact points_fail h hpos
    · next type _ =>
      refine (checkInits_points s id type [] inits hinits).andThen
        (fun a ha => by simp [hpos, ha]) ?_
      intro inits _ hinits
      exact points_settle fun i hi => by simp [hi, hpos, hinits]
  | call info name args =>
    obtain ⟨hpos, hargs⟩ : P info.pos ∧ Node.Placed P (Expr.nodesAll args) := by simpa using h
    rw [checkExpr]
    split
    · exact points_fail h hpos
    · next params ret _ =>
      split
      · refine (checkArgs_points s id args params hargs).andThen (fun a ha => by simp [hpos, ha]) ?_
        intro args _ hargs
        exact points_settle fun i hi => by simp [hi, hpos, hargs]
      · exact points_fail h hpos
  | default info type =>
    obtain ⟨hpos, htype⟩ : P info.pos ∧ Node.Placed P type.nodes := by simpa using h
    rw [checkExpr]
    refine (resolve_points s id type htype).andThen (fun a ha => by simp [hpos, ha]) ?_
    intro type found htype
    exact points_settle fun i hi => by simp [hi, hpos, htype]
termination_by structural e

theorem checkExprs_points (s : Scopes) (id : Nat) (es : List Expr)
    (h : Node.Placed P (Expr.nodesAll es)) :
    (s.checkExprs id es).Points P fun es => Node.Placed P (Expr.nodesAll es) := by
  cases es with
  | nil => exact points_ok h
  | cons e es =>
    obtain ⟨he, hes⟩ : Node.Placed P e.nodes ∧ Node.Placed P (Expr.nodesAll es) := by simpa using h
    rw [checkExprs]
    refine (checkExpr_points s id e he).andThen (fun a ha => by simp [ha, hes]) ?_
    intro e type he
    refine (checkExprs_points s id es hes).andThen (fun a ha => by simp [he, ha]) ?_
    intro es types hes
    exact points_ok (by simp [he, hes])
termination_by structural es

theorem checkElems_points (s : Scopes) (id : Nat) (expected : Option Ty) (es : List Expr)
    (h : Node.Placed P (Expr.nodesAll es)) :
    (s.checkElems id expected es).Points P fun es => Node.Placed P (Expr.nodesAll es) := by
  cases es with
  | nil => exact points_ok h
  | cons e es =>
    obtain ⟨he, hes⟩ : Node.Placed P e.nodes ∧ Node.Placed P (Expr.nodesAll es) := by simpa using h
    rw [checkElems]
    refine (checkExpr_points s id e he).andThen (fun a ha => by simp [ha, hes]) ?_
    intro e found he
    have hrest : ∀ expected : Option Ty,
        ((s.checkElems id expected es).andThen (fun es => e :: es)
          fun es type => ⟨e :: es, .ok type⟩ : Visit (List Expr) (Option Ty)).Points P
            fun es => Node.Placed P (Expr.nodesAll es) := fun expected =>
      (checkElems_points s id expected es hes).andThen (fun a ha => by simp [he, ha])
        fun es _ hes => points_ok (by simp [he, hes])
    cases expected with
    | none => exact hrest (some found)
    | some type =>
      dsimp only
      split
      · exact hrest (some type)
      · exact points_fail (by simp [he, hes]) (Expr.place_of_placed he)
termination_by structural es

theorem checkArgs_points (s : Scopes) (id : Nat) (es : List Expr) (params : List (String × Ty))
    (h : Node.Placed P (Expr.nodesAll es)) :
    (s.checkArgs id es params).Points P fun es => Node.Placed P (Expr.nodesAll es) := by
  cases es with
  | nil => exact points_ok h
  | cons e es =>
    cases params with
    | nil => exact points_ok h
    | cons param params =>
      obtain ⟨he, hes⟩ : Node.Placed P e.nodes ∧ Node.Placed P (Expr.nodesAll es) := by
        simpa using h
      rw [checkArgs]
      refine (checkExpr_points s id e he).andThen (fun a ha => by simp [ha, hes]) ?_
      intro e found he
      split
      · refine (checkArgs_points s id es params hes).andThen (fun a ha => by simp [he, ha]) ?_
        intro es _ hes
        exact points_ok (by simp [he, hes])
      · exact points_fail (by simp [he, hes]) (Expr.place_of_placed he)
termination_by structural es

theorem checkInits_points (s : Scopes) (id : Nat) (type : Ty) (seen : List String)
    (inits : List (String × Expr)) (h : Node.Placed P (Expr.nodesInits inits)) :
    (s.checkInits id type seen inits).Points P fun inits =>
      Node.Placed P (Expr.nodesInits inits) := by
  cases inits with
  | nil => exact points_ok h
  | cons init inits =>
    obtain ⟨field, e⟩ := init
    obtain ⟨he, hinits⟩ : Node.Placed P e.nodes ∧ Node.Placed P (Expr.nodesInits inits) := by
      simpa using h
    rw [checkInits]
    split
    · exact points_fail h (Expr.place_of_placed he)
    split
    · exact points_fail h (Expr.place_of_placed he)
    · refine (checkExpr_points s id e he).andThen (fun a ha => by simp [ha, hinits]) ?_
      intro e found he
      split
      · refine (checkInits_points s id type (field :: seen) inits hinits).andThen
          (fun a ha => by simp [he, ha]) ?_
        intro inits _ hinits
        exact points_ok (by simp [he, hinits])
      · exact points_fail (by simp [he, hinits]) (Expr.place_of_placed he)
termination_by structural inits

end

theorem checkCondition_points (s : Scopes) (id : Nat) (test : Expr)
    (h : Node.Placed P test.nodes) :
    (s.checkCondition id test).Points P fun test => Node.Placed P test.nodes := by
  unfold checkCondition
  refine (checkExpr_points s id test h).andThen (fun _ ha => ha) ?_
  intro test found htest
  split
  · exact points_ok htest
  · exact points_fail htest (Expr.place_of_placed htest)

theorem settleStmt_points {s : Scopes} {info : Info} {whole : Info → Stmt} {type : Ty}
    (h : ∀ i : Info, i.pos = info.pos → Node.Placed P (whole i).nodes) :
    (settleStmt s info whole type).Points P fun stmt => Node.Placed P stmt.nodes :=
  points_settle_andThen h

mutual

theorem checkStmt_points (s : Scopes) (id : Nat) (stmt : Stmt) (h : Node.Placed P stmt.nodes) :
    (s.checkStmt id stmt).Points P fun stmt => Node.Placed P stmt.nodes := by
  cases stmt with
  | var info name type init =>
    obtain ⟨hpos, htype, hinit⟩ : P info.pos ∧ Node.Placed P (type.elim [] TypeExpr.nodes) ∧
        Node.Placed P (init.elim [] Expr.nodes) := by simpa using h
    rw [checkStmt]
    refine (points_optional (resolve_points s id) htype).andThen
      (fun a ha => by simp [hpos, ha, hinit]) ?_
    intro type declared htype
    refine (points_optional (checkExpr_points s id) hinit).andThen
      (fun a ha => by simp [hpos, htype, ha]) ?_
    intro init found hinit
    have hwhole : Node.Placed P (Stmt.var info name type init).nodes := by
      simp [hpos, htype, hinit]
    split
    · exact points_fail hwhole hpos
    split
    · exact points_fail hwhole hpos
    · exact settleStmt_points fun i hi => by simp [hi, hpos, htype, hinit]
  | expr info e =>
    obtain ⟨hpos, he⟩ : P info.pos ∧ Node.Placed P e.nodes := by simpa using h
    rw [checkStmt]
    refine (checkExpr_points s id e he).andThen (fun a ha => by simp [hpos, ha]) ?_
    intro e type he
    exact settleStmt_points fun i hi => by simp [hi, hpos, he]
  | block info stmts =>
    obtain ⟨hpos, hstmts⟩ : P info.pos ∧ Node.Placed P (Stmt.nodesAll stmts) := by simpa using h
    rw [checkStmt]
    refine (checkStmts_points _ _ .unit stmts hstmts).andThen (fun a ha => by simp [hpos, ha]) ?_
    rintro stmts ⟨last, s⟩ hstmts
    exact settleStmt_points fun i hi => by simp [hi, hpos, hstmts]
  | cond info test yes no =>
    cases no with
    | none =>
      obtain ⟨hpos, htest, hyes⟩ : P info.pos ∧ Node.Placed P test.nodes ∧
          Node.Placed P yes.nodes := by simpa using h
      rw [checkStmt]
      refine (checkCondition_points s id test htest).andThen
        (fun a ha => by simp [hpos, ha, hyes]) ?_
      intro test _ htest
      refine (checkStmt_points _ _ yes hyes).andThen (fun a ha => by simp [hpos, htest, ha]) ?_
      rintro yes ⟨type, s⟩ hyes
      exact settleStmt_points fun i hi => by simp [hi, hpos, htest, hyes]
    | some no =>
      obtain ⟨hpos, htest, hyes, hno⟩ : P info.pos ∧ Node.Placed P test.nodes ∧
          Node.Placed P yes.nodes ∧ Node.Placed P no.nodes := by simpa [and_assoc] using h
      rw [checkStmt]
      refine (checkCondition_points s id test htest).andThen
        (fun a ha => by simp [hpos, ha, hyes, hno]) ?_
      intro test _ htest
      refine (checkStmt_points _ _ yes hyes).andThen
        (fun a ha => by simp [hpos, htest, ha, hno]) ?_
      rintro yes ⟨yesType, s⟩ hyes
      refine (checkStmt_points _ _ no hno).andThen
        (fun a ha => by simp [hpos, htest, hyes, ha]) ?_
      rintro no ⟨noType, s⟩ hno
      dsimp only
      split
      · exact settleStmt_points fun i hi => by simp [hi, hpos, htest, hyes, hno]
      · exact points_fail (by simp [hpos, htest, hyes, hno]) (Stmt.place_of_placed hno)
  | loop info test body =>
    obtain ⟨hpos, htest, hbody⟩ : P info.pos ∧ Node.Placed P test.nodes ∧
        Node.Placed P body.nodes := by simpa using h
    rw [checkStmt]
    refine (checkCondition_points s id test htest).andThen
      (fun a ha => by simp [hpos, ha, hbody]) ?_
    intro test _ htest
    refine (checkStmt_points _ _ body hbody).andThen (fun a ha => by simp [hpos, htest, ha]) ?_
    rintro body ⟨type, s⟩ hbody
    exact settleStmt_points fun i hi => by simp [hi, hpos, htest, hbody]
  | ret info value =>
    obtain ⟨hpos, hvalue⟩ : P info.pos ∧ Node.Placed P (value.elim [] Expr.nodes) := by
      simpa using h
    rw [checkStmt]
    split
    · exact points_fail h hpos
    · refine (points_optional (checkExpr_points s id) hvalue).andThen
        (fun a ha => by simp [hpos, ha]) ?_
      intro value found hvalue
      split
      · exact settleStmt_points fun i hi => by simp [hi, hpos, hvalue]
      · apply points_fail
        · simp [hpos, hvalue]
        · cases value with
          | none => exact hpos
          | some e => exact e.place_of_placed hvalue
termination_by structural stmt

theorem checkStmts_points (s : Scopes) (id : Nat) (last : Ty) (stmts : List Stmt)
    (h : Node.Placed P (Stmt.nodesAll stmts)) :
    (s.checkStmts id last stmts).Points P fun stmts => Node.Placed P (Stmt.nodesAll stmts) := by
  cases stmts with
  | nil => exact points_ok h
  | cons stmt stmts =>
    obtain ⟨hstmt, hstmts⟩ : Node.Placed P stmt.nodes ∧ Node.Placed P (Stmt.nodesAll stmts) := by
      simpa using h
    rw [checkStmts]
    refine (checkStmt_points s id stmt hstmt).andThen (fun a ha => by simp [ha, hstmts]) ?_
    rintro stmt ⟨type, s⟩ hstmt
    refine (checkStmts_points s id type stmts hstmts).andThen (fun a ha => by simp [hstmt, ha]) ?_
    intro stmts last hstmts
    exact points_ok (by simp [hstmt, hstmts])
termination_by structural stmts

end

theorem place_of_addParams {s : Scopes} {id : Nat} {items : List (Item TypeExpr)}
    {params : List (String × Ty)} {d : Diagnostic} (hitems : ∀ i ∈ items, P i.pos)
    (h : s.addParams id items params = .error d) :
    ∃ e : TypeError, ∃ pos, P pos ∧ d = e.at pos := by
  induction items generalizing s params with
  | nil => cases h
  | cons item items ih =>
    obtain ⟨hitem, hitems⟩ := List.forall_mem_cons.mp hitems
    cases params with
    | nil => cases h
    | cons param params =>
      obtain ⟨name, type⟩ := param
      rw [addParams] at h
      split at h
      · cases h
        exact ⟨_, item.pos, hitem, rfl⟩
      · exact ih hitems h

theorem place_of_enterFunction {s : Scopes} {id : Nat} {f : Func} {pos : Pos}
    {params : List (String × Ty)} {ret : Ty} {d : Diagnostic} (hpos : P pos)
    (hparams : ∀ i ∈ f.params, P i.pos) (h : s.enterFunction id f pos params ret = .error d) :
    ∃ e : TypeError, ∃ pos, P pos ∧ d = e.at pos := by
  unfold enterFunction at h
  dsimp only at h
  split at h
  · cases h
    exact ⟨_, pos, hpos, rfl⟩
  · next s' _ =>
    cases hadd : s'.addParams (s.function id ret).1 f.params params with
    | error d' =>
      rw [hadd] at h
      cases h
      exact place_of_addParams hparams hadd
    | ok s'' =>
      rw [hadd] at h
      cases h

def FuncPlaced (P : Pos → Prop) (f : Func) : Prop :=
  ItemsPlaced P f.params ∧ Node.Placed P f.ret.nodes ∧ Node.Placed P f.body.nodes

theorem checkFunc_points (s : Scopes) (id : Nat) {pos : Pos} (f : Func) (hpos : P pos)
    (h : FuncPlaced P f) : (s.checkFunc id pos f).Points P (FuncPlaced P) := by
  obtain ⟨hparams, hret, hbody⟩ := h
  unfold checkFunc
  split
  · exact points_fail ⟨hparams, hret, hbody⟩ hpos
  refine (resolveItems_points s id f.params hparams).andThen (fun a ha => ⟨ha, hret, hbody⟩) ?_
  intro params fields hparams
  refine (resolve_points s id f.ret hret).andThen (fun a ha => ⟨hparams, ha, hbody⟩) ?_
  intro retExpr ret hret
  dsimp only
  split
  · next d hd =>
    obtain ⟨e, at', hat, rfl⟩ := place_of_enterFunction hpos hparams.1 hd
    exact points_diagnostic ⟨hparams, hret, hbody⟩ hat
  · next inner s' _ =>
    refine (checkStmt_points s' inner f.body hbody).andThen (fun a ha => ⟨hparams, hret, ha⟩) ?_
    rintro body ⟨type, s''⟩ hbody
    dsimp only
    split
    · next d hd =>
      unfold missingReturn? at hd
      split at hd
      · cases hd
      · obtain ⟨at', hfalls, rfl⟩ := Option.map_eq_some_iff.mp hd
        exact points_diagnostic ⟨hparams, hret, hbody⟩ (Stmt.place_of_fallsOff? hbody hfalls)
    · split
      · exact points_fail ⟨hparams, hret, hbody⟩ hpos
      · exact points_ok ⟨hparams, hret, hbody⟩

theorem placed_object {info : Info} {name : String} {fields : List (Item TypeExpr)} :
    Node.Placed P (Def.object info name fields).nodes ↔ P info.pos ∧ ItemsPlaced P fields := by
  simp [ItemsPlaced, and_assoc]

theorem placed_func {info : Info} {f : Func} :
    Node.Placed P (Def.func info f).nodes ↔ P info.pos ∧ FuncPlaced P f := by
  simp [FuncPlaced, ItemsPlaced, and_assoc]

theorem checkDef_points (s : Scopes) (id : Nat) (d : Def) (h : Node.Placed P d.nodes) :
    (s.checkDef id d).Points P fun d => Node.Placed P d.nodes := by
  cases d with
  | object info name fields =>
    obtain ⟨hpos, hfields⟩ := placed_object.mp h
    rw [checkDef]
    split
    · exact points_fail h hpos
    refine (resolveItems_points s id fields hfields).andThen
      (fun a ha => placed_object.mpr ⟨hpos, ha⟩) ?_
    intro items fields hitems
    split
    · exact points_fail (placed_object.mpr ⟨hpos, hitems⟩) hpos
    · exact points_settle_andThen fun i hi => placed_object.mpr ⟨hi ▸ hpos, hitems⟩
  | func info f =>
    obtain ⟨hpos, hf⟩ := placed_func.mp h
    rw [checkDef]
    refine (checkFunc_points s id f hpos hf).andThen (fun a ha => placed_func.mpr ⟨hpos, ha⟩) ?_
    rintro f ⟨type, s⟩ hf
    exact points_settle_andThen fun i hi => placed_func.mpr ⟨hi ▸ hpos, hf⟩

theorem checkDefs_points (s : Scopes) (id : Nat) (ds : List Def)
    (h : Node.Placed P (Def.nodesAll ds)) :
    (s.checkDefs id ds).Points P fun ds => Node.Placed P (Def.nodesAll ds) := by
  induction ds generalizing s with
  | nil => exact points_ok h
  | cons d ds ih =>
    rw [Def.nodesAll, Node.placed_append] at h
    have hcons : ∀ {d ds}, Node.Placed P d.nodes → Node.Placed P (Def.nodesAll ds) →
        Node.Placed P (Def.nodesAll (d :: ds)) := fun hd hds => Node.placed_append.mpr ⟨hd, hds⟩
    rw [checkDefs]
    refine (checkDef_points s id d h.1).andThen (fun a ha => hcons ha h.2) ?_
    rintro d ⟨type, s⟩ hd
    refine (ih s h.2).andThen (fun a ha => hcons hd ha) ?_
    intro ds s hds
    exact points_ok (hcons hd hds)

end Scopes

/-- The check of a module leaves its places, and finds fault at one of them. -/
theorem Module.check_points {P : Pos → Prop} {m : Module} (h : Node.Placed P m.nodes) :
    m.check.Points P fun m => Node.Placed P m.nodes := by
  have hmodule : ∀ {m : Module}, Node.Placed P m.nodes ↔
      Node.Placed P (Def.nodesAll m.defs) ∧ Node.Placed P (Stmt.nodesAll m.stmts) := by
    simp [Module.nodes, Node.places]
  obtain ⟨hdefs, hstmts⟩ := hmodule.mp h
  unfold Module.check
  refine (Scopes.checkDefs_points _ _ m.defs hdefs).andThen
    (fun a ha => hmodule.mpr ⟨ha, hstmts⟩) ?_
  intro defs s hdefs
  refine (Scopes.checkStmts_points _ _ .unit m.stmts hstmts).andThen
    (fun a ha => hmodule.mpr ⟨hdefs, ha⟩) ?_
  intro stmts _ hstmts
  split
  · exact ⟨hmodule.mpr ⟨hdefs, hstmts⟩, fun d hd => by cases hd⟩
  · exact Visit.points_ok (hmodule.mpr ⟨hdefs, hstmts⟩)

end EdeLang
