import EdeLang.Proofs.Typing.Returns

/-!
# Paths through a body

A path through statements is the list of the statements that control comes to, blocks apart, from
the first one past the last one. Conditions may turn out either way, and nothing comes after a
return. A body falls off its end just if it has a path, and the place that is reported is that of
the last statement on one.
-/

namespace EdeLang

namespace Stmt

/-- Control can go through the statements, in sequence and past the last one, along a path. -/
inductive Walks : List Stmt → List Stmt → Prop
  | nil : Walks [] []
  | var {info name type init ss path} (rest : Walks ss path) :
      Walks (.var info name type init :: ss) (.var info name type init :: path)
  | expr {info e ss path} (rest : Walks ss path) :
      Walks (.expr info e :: ss) (.expr info e :: path)
  | block {info stmts ss inner path} (body : Walks stmts inner) (rest : Walks ss path) :
      Walks (.block info stmts :: ss) (inner ++ path)
  | yes {info test yes no ss inner path} (branch : Walks [yes] inner) (rest : Walks ss path) :
      Walks (.cond info test yes no :: ss) (.cond info test yes no :: (inner ++ path))
  | no {info test yes no ss inner path} (branch : Walks [no] inner) (rest : Walks ss path) :
      Walks (.cond info test yes (some no) :: ss) (.cond info test yes (some no) :: (inner ++ path))
  | skip {info test yes ss path} (rest : Walks ss path) :
      Walks (.cond info test yes none :: ss) (.cond info test yes none :: path)
  | done {info test body ss path} (rest : Walks ss path) :
      Walks (.loop info test body :: ss) (.loop info test body :: path)
  | round {info test body ss inner path} (once : Walks [body] inner)
      (rest : Walks (.loop info test body :: ss) path) :
      Walks (.loop info test body :: ss) (.loop info test body :: (inner ++ path))

theorem Walks.append {ss ss' path path' : List Stmt} (first : Walks ss path)
    (second : Walks ss' path') : Walks (ss ++ ss') (path ++ path') := by
  induction first with
  | nil => exact second
  | var _ ih => exact .var ih
  | expr _ ih => exact .expr ih
  | block body _ _ ih => rw [List.append_assoc]; exact .block body ih
  | yes branch _ _ ih => simp only [List.cons_append, List.append_assoc]; exact .yes branch ih
  | no branch _ _ ih => simp only [List.cons_append, List.append_assoc]; exact .no branch ih
  | skip _ ih => exact .skip ih
  | done _ ih => exact .done ih
  | round once _ _ ih => simp only [List.cons_append, List.append_assoc]; exact .round once ih

theorem Walks.passesAll {ss path : List Stmt} (h : Walks ss path) : PassesAll ss := by
  induction h with
  | nil => trivial
  | var _ ih | expr _ ih | skip _ ih | done _ ih => exact ⟨trivial, ih⟩
  | block _ _ ihbody ih => exact ⟨ihbody, ih⟩
  | @yes _ _ _ no _ _ _ _ _ ihbranch ih =>
    refine ⟨?_, ih⟩
    cases no with
    | none => trivial
    | some no => exact .inl ihbranch.1
  | no _ _ ihbranch ih => exact ⟨.inr ihbranch.1, ih⟩
  | round _ _ _ ih => exact ih

mutual

def onlyBlocks : Stmt → Bool
  | .block _ stmts => onlyBlocksAll stmts
  | _ => false

def onlyBlocksAll : List Stmt → Bool
  | [] => true
  | s :: ss => s.onlyBlocks && onlyBlocksAll ss

end

end Stmt

namespace FlowGraph

/-- Control can go from an edge to the exit by way of the nodes of the statements, none of which
is a return. -/
inductive Route (g : FlowGraph) : Edge → List Stmt → Prop
  | exit : Route g .exit []
  | step {i : Nat} {stmt : Stmt} {succ : List Edge} {e : Edge} {path : List Stmt}
      (node : g.nodes[i]? = some (stmt, succ)) (passed : stmt.isReturn = false) (edge : e ∈ succ)
      (rest : Route g e path) : Route g (.node i) (stmt :: path)

variable {g : FlowGraph}

theorem Route.of_node {i : Nat} {stmt : Stmt} {succ : List Edge} {path : List Stmt}
    (h : g.Route (.node i) path) (hnode : g.nodes[i]? = some (stmt, succ)) :
    stmt.isReturn = false ∧ ∃ e ∈ succ, ∃ rest, path = stmt :: rest ∧ g.Route e rest := by
  cases h with
  | step node passed edge rest =>
    obtain ⟨rfl, rfl⟩ : _ = stmt ∧ _ = succ := by simpa [hnode] using node.symm
    exact ⟨passed, _, edge, _, rfl, rest⟩

/-- A route begins with a path through the statements and goes on from where control goes after
them. -/
def Splits (g : FlowGraph) (ss : List Stmt) (next : Edge) (path : List Stmt) : Prop :=
  ∃ inner rest, path = inner ++ rest ∧ Stmt.Walks ss inner ∧ g.Route next rest

/-- Each round of a loop makes the route shorter. -/
theorem splits_loop {base : Nat} {next : Edge} {info : Info} {test : Expr} {body : Stmt}
    {bodyEntry : Edge}
    (hnode : g.nodes[base]? = some (.loop info test body, [bodyEntry, next]))
    (hbody : ∀ path, g.Route bodyEntry path → g.Splits [body] (.node base) path)
    (path : List Stmt) (h : g.Route (.node base) path) :
    g.Splits [.loop info test body] next path := by
  induction hlength : path.length using Nat.strong_induction_on generalizing path with
  | _ n ih =>
    obtain ⟨-, e, he, rest, rfl, hrest⟩ := h.of_node hnode
    rcases List.mem_pair.mp he with rfl | rfl
    · obtain ⟨inner, again, rfl, hinner, hagain⟩ := hbody rest hrest
      have hshorter : again.length < n := by
        rw [← hlength, List.length_cons, List.length_append]
        omega
      obtain ⟨rounds, after, rfl, hrounds, hafter⟩ := ih _ hshorter again hagain rfl
      exact ⟨_ :: (inner ++ rounds), after, by simp, .round hinner hrounds, hafter⟩
    · exact ⟨[_], rest, rfl, .done .nil, hrest⟩

mutual

/-- A route through the nodes of a statement follows a path through the statement. -/
theorem splits_of_route (s : Stmt) (base : Nat) (next : Edge) (path : List Stmt)
    (hg : g.Contains base (link base next s).1) (h : g.Route (link base next s).2 path) :
    g.Splits [s] next path := by
  cases s with
  | block info stmts =>
    simp only [link] at hg h
    obtain ⟨inner, rest, rfl, hinner, hrest⟩ := splits_of_routeAll stmts base next path hg h
    exact ⟨inner ++ [], rest, by simp, .block hinner .nil, hrest⟩
  | cond info test yes no =>
    cases no with
    | none =>
      simp only [link] at hg h
      obtain ⟨-, e, he, rest, rfl, hrest⟩ := h.of_node hg.head
      rcases List.mem_pair.mp he with rfl | rfl
      · obtain ⟨inner, after, rfl, hinner, hafter⟩ :=
          splits_of_route yes (base + 1) next rest hg.tail hrest
        exact ⟨_ :: (inner ++ []), after, by simp, .yes hinner .nil, hafter⟩
      · exact ⟨[_], rest, rfl, .skip .nil, hrest⟩
    | some s =>
      simp only [link] at hg h
      obtain ⟨-, e, he, rest, rfl, hrest⟩ := h.of_node hg.head
      rcases List.mem_pair.mp he with rfl | rfl
      · obtain ⟨inner, after, rfl, hinner, hafter⟩ :=
          splits_of_route yes (base + 1) next rest hg.tail.left hrest
        exact ⟨_ :: (inner ++ []), after, by simp, .yes hinner .nil, hafter⟩
      · obtain ⟨inner, after, rfl, hinner, hafter⟩ :=
          splits_of_route s _ next rest hg.tail.right hrest
        exact ⟨_ :: (inner ++ []), after, by simp, .no hinner .nil, hafter⟩
  | loop info test body =>
    simp only [link] at hg h
    exact splits_loop hg.head
      (fun path' h' => splits_of_route body (base + 1) (.node base) path' hg.tail h') path h
  | ret info value =>
    simp only [link] at hg h
    have hreturn := (h.of_node hg.head).1
    simp [Stmt.isReturn] at hreturn
  | var info name type init =>
    simp only [link] at hg h
    obtain ⟨-, e, he, rest, rfl, hrest⟩ := h.of_node hg.head
    obtain rfl := List.mem_singleton.mp he
    exact ⟨[_], rest, rfl, .var .nil, hrest⟩
  | expr info e =>
    simp only [link] at hg h
    obtain ⟨-, e, he, rest, rfl, hrest⟩ := h.of_node hg.head
    obtain rfl := List.mem_singleton.mp he
    exact ⟨[_], rest, rfl, .expr .nil, hrest⟩
termination_by structural s

theorem splits_of_routeAll (ss : List Stmt) (base : Nat) (next : Edge) (path : List Stmt)
    (hg : g.Contains base (linkAll base next ss).1) (h : g.Route (linkAll base next ss).2 path) :
    g.Splits ss next path := by
  cases ss with
  | nil => exact ⟨[], path, rfl, .nil, h⟩
  | cons s ss =>
    simp only [linkAll] at hg h
    obtain ⟨first, after, rfl, hfirst, hafter⟩ := splits_of_route s _ _ path hg.right h
    obtain ⟨second, rest, rfl, hsecond, hrest⟩ :=
      splits_of_routeAll ss base next after hg.left hafter
    exact ⟨first ++ second, rest, by simp, hfirst.append hsecond, hrest⟩
termination_by structural ss

end

mutual

theorem succ_of_isReturn (s : Stmt) (base : Nat) (next : Edge) :
    ∀ n ∈ (link base next s).1, n.1.isReturn → n.2 = [.exit] := by
  cases s with
  | block info stmts => exact succ_of_isReturnAll stmts base next
  | cond info test yes no =>
    have hyes := succ_of_isReturn yes (base + 1) next
    cases no with
    | none =>
      simp only [link, List.forall_mem_cons]
      exact ⟨by simp [Stmt.isReturn], hyes⟩
    | some s =>
      simp only [link, List.forall_mem_cons, List.forall_mem_append]
      exact ⟨by simp [Stmt.isReturn], hyes, succ_of_isReturn s _ next⟩
  | loop info test body =>
    simp only [link, List.forall_mem_cons]
    exact ⟨by simp [Stmt.isReturn], succ_of_isReturn body (base + 1) (.node base)⟩
  | ret info value | var info name type init | expr info e => simp [link, Stmt.isReturn]
termination_by structural s

theorem succ_of_isReturnAll (ss : List Stmt) (base : Nat) (next : Edge) :
    ∀ n ∈ (linkAll base next ss).1, n.1.isReturn → n.2 = [.exit] := by
  cases ss with
  | nil => simp [linkAll]
  | cons s ss =>
    simp only [linkAll, List.forall_mem_append]
    exact ⟨succ_of_isReturnAll ss base next, succ_of_isReturn s _ _⟩
termination_by structural ss

end

/-- Where control comes to a node and can leave the body from it without a return, there is a route
that ends with its statement. -/
theorem exists_route_of_leads
    (hreturn : ∀ n ∈ g.nodes, n.1.isReturn → n.2 = [.exit]) {e : Edge} {i : Nat}
    {stmt : Stmt} {succ : List Edge} (h : g.Leads e i) (hnode : g.nodes[i]? = some (stmt, succ))
    (hpassed : stmt.isReturn = false) (hexit : .exit ∈ succ) :
    ∃ path, g.Route e (path ++ [stmt]) := by
  induction h with
  | here i => exact ⟨[], .step hnode hpassed hexit .exit⟩
  | @onward i j e edge rest ih =>
    obtain ⟨path, hpath⟩ := ih hnode
    cases hi : g.nodes[i]? with
    | none => simp [successors, hi] at edge
    | some n =>
      have hedge : e ∈ n.2 := by simpa [successors, hi] using edge
      have hpast : n.1.isReturn = false := by
        by_contra hret
        rw [hreturn n (List.mem_of_getElem? hi) (by simpa using hret)] at hedge
        rw [List.mem_singleton.mp hedge] at rest
        cases rest
      exact ⟨n.1 :: path, .step hi hpast hedge hpath⟩

theorem Leads.onto {e : Edge} {i j : Nat} (h : g.Leads e i) (hj : .node j ∈ g.successors i) :
    g.Leads e j := h.trans hj (.here j)

theorem Searches.leads {start : Edge} {queue found result : List Nat}
    (h : g.Searches queue found result) (hqueue : ∀ i ∈ queue, g.Leads start i)
    (hfound : ∀ i ∈ found, g.Leads start i) : ∀ i ∈ result, g.Leads start i := by
  induction h with
  | done => exact hfound
  | again _ _ ih => exact ih (fun j hj => hqueue j (List.mem_cons_of_mem _ hj)) hfound
  | @visit i queue found result _ _ ih =>
    have hlead := hqueue i List.mem_cons_self
    refine ih (fun j hj => ?_) fun j hj => ?_
    · rcases List.mem_append.mp hj with hj | hj
      · exact hqueue j (List.mem_cons_of_mem i hj)
      · exact hlead.onto (mem_nodes.mp hj)
    · rcases List.mem_append.mp hj with hj | hj
      · exact hfound j hj
      · rw [List.mem_singleton.mp hj]
        exact hlead

theorem leads_of_mem_reachable {i : Nat} (h : i ∈ g.reachable) : g.Leads g.entry i := by
  refine g.searches_reachable.leads (fun j hj => ?_) (by simp) i h
  cases hentry : g.entry with
  | exit => simp [hentry, Edge.node?] at hj
  | node k =>
    obtain rfl : j = k := by simpa [hentry, Edge.node?] using hj
    exact .here j

mutual

theorem link_entry (s : Stmt) (base : Nat) (next : Edge) :
    (s.onlyBlocks → (link base next s).2 = next) ∧
      (¬ s.onlyBlocks → ∃ k, (link base next s).2 = .node k) := by
  cases s with
  | block info stmts => exact linkAll_entry stmts base next
  | cond info test yes no => cases no <;> exact ⟨by simp [Stmt.onlyBlocks], fun _ => ⟨base, rfl⟩⟩
  | loop _ _ _ | ret _ _ | var _ _ _ _ | expr _ _ =>
    exact ⟨by simp [Stmt.onlyBlocks], fun _ => ⟨base, rfl⟩⟩
termination_by structural s

theorem linkAll_entry (ss : List Stmt) (base : Nat) (next : Edge) :
    (Stmt.onlyBlocksAll ss → (linkAll base next ss).2 = next) ∧
      (¬ Stmt.onlyBlocksAll ss → ∃ k, (linkAll base next ss).2 = .node k) := by
  cases ss with
  | nil => exact ⟨fun _ => rfl, by simp [Stmt.onlyBlocksAll]⟩
  | cons s ss =>
    obtain ⟨hblocks, hnode⟩ := linkAll_entry ss base next
    obtain ⟨hblock, hentry⟩ :=
      link_entry s (base + (linkAll base next ss).1.length) (linkAll base next ss).2
    simp only [linkAll, Stmt.onlyBlocksAll, Bool.and_eq_true]
    refine ⟨fun h => (hblock h.1).trans (hblocks h.2), fun hnot => ?_⟩
    by_cases hs : s.onlyBlocks
    · rw [hblock hs]
      exact hnode fun hss => hnot ⟨hs, hss⟩
    · exact hentry hs
termination_by structural ss

end

theorem exists_leak {g : FlowGraph} {pos : Pos} (h : g.reachable.findSome? g.leak? = some pos) :
    ∃ i stmt succ, g.Leads g.entry i ∧ g.nodes[i]? = some (stmt, succ) ∧ stmt.isReturn = false ∧
      .exit ∈ succ ∧ stmt.pos = pos := by
  obtain ⟨i, hi, hleak⟩ := List.exists_of_findSome?_eq_some h
  refine ⟨i, ?_⟩
  unfold leak? at hleak
  split at hleak
  · next stmt succ hnode =>
    obtain ⟨⟨hexit, hpassed⟩, hpos⟩ : (.exit ∈ succ ∧ stmt.isReturn = false) ∧ stmt.pos = pos := by
      simpa using hleak
    exact ⟨stmt, succ, leads_of_mem_reachable hi, hnode, hpassed, hexit, hpos⟩
  · cases hleak

end FlowGraph

namespace Stmt

/-- A route from the entry of the graph of a body is a path through the body. -/
theorem walks_of_route {body : Stmt} {path : List Stmt}
    (h : (FlowGraph.ofBody body).Route (FlowGraph.ofBody body).entry path) : Walks [body] path := by
  obtain ⟨inner, rest, rfl, hwalk, hrest⟩ := FlowGraph.splits_of_route body 0 .exit path
    (fun k n hk => by simpa [FlowGraph.ofBody] using hk) h
  cases hrest
  rwa [List.append_nil]

theorem entry_of_onlyBlocks {body : Stmt} (h : body.onlyBlocks) :
    (FlowGraph.ofBody body).entry = .exit := (FlowGraph.link_entry body 0 .exit).1 h

theorem exists_walk_of_fallsOff {body : Stmt} {pos : Pos} (hblocks : ¬ body.onlyBlocks)
    (h : body.fallsOff? = some pos) :
    ∃ path last, Walks [body] (path ++ [last]) ∧ last.pos = pos := by
  obtain ⟨k, hentry⟩ : ∃ k, (FlowGraph.ofBody body).entry = .node k :=
    (FlowGraph.link_entry body 0 .exit).2 hblocks
  simp only [fallsOff?, FlowGraph.fallsOff?, hentry] at h
  obtain ⟨i, last, succ, hlead, hnode, hpassed, hexit, hpos⟩ := FlowGraph.exists_leak h
  obtain ⟨path, hroute⟩ := FlowGraph.exists_route_of_leads
    (FlowGraph.succ_of_isReturn body 0 .exit) hlead hnode hpassed hexit
  exact ⟨path, last, walks_of_route hroute, hpos⟩

/-- The check for a missing return is exact. It finds nothing just if no path leads past the end of
the body. The place that it reports is that of the last statement on such a path, or that of the
body if this consists of blocks. -/
theorem fallsOff_exact (body : Stmt) :
    (body.fallsOff? = none ↔ ¬ ∃ path, Walks [body] path) ∧
    ∀ pos, body.fallsOff? = some pos →
      if body.onlyBlocks then pos = body.pos
      else ∃ path last, Walks [body] (path ++ [last]) ∧ last.pos = pos := by
  refine ⟨⟨fun hnone => ?_, fun hpath => ?_⟩, fun pos hpos => ?_⟩
  · rintro ⟨path, hwalk⟩
    exact not_passes_of_fallsOff hnone hwalk.passesAll.1
  · cases hfalls : body.fallsOff? with
    | none => rfl
    | some pos =>
      refine absurd ?_ hpath
      by_cases hblocks : body.onlyBlocks
      · exact ⟨[], walks_of_route (by rw [entry_of_onlyBlocks hblocks]; exact .exit)⟩
      · obtain ⟨path, last, hwalk, -⟩ := exists_walk_of_fallsOff hblocks hfalls
        exact ⟨path ++ [last], hwalk⟩
  · split
    · next hblocks =>
      rw [fallsOff?, FlowGraph.fallsOff?, entry_of_onlyBlocks hblocks] at hpos
      exact (Option.some.inj hpos).symm
    · next hblocks => exact exists_walk_of_fallsOff hblocks hpos

/-- A loop that may return, and after it a conditional with a return in one of its branches. -/
def halfReturning : Stmt :=
  let number (line : Nat) : Expr := .literal (.at ⟨line, 1⟩) (.int 0)
  .block (.at ⟨1, 1⟩)
    [.loop (.at ⟨2, 1⟩) (number 2) (.block (.at ⟨2, 5⟩) [.ret (.at ⟨3, 1⟩) (some (number 3))]),
      .cond (.at ⟨4, 1⟩) (number 4) (.ret (.at ⟨5, 1⟩) none)
        (some (.block (.at ⟨6, 1⟩) [.expr (.at ⟨7, 1⟩) (number 7)]))]

theorem fallsOff_exact_halfReturning : halfReturning.fallsOff? = some ⟨7, 1⟩ ∧
    ∃ path last, Walks [halfReturning] (path ++ [last]) ∧ last.pos = ⟨7, 1⟩ := by
  have hfalls : halfReturning.fallsOff? = some ⟨7, 1⟩ := by decide
  have hblocks : ¬ halfReturning.onlyBlocks := by decide
  have hpath := (fallsOff_exact halfReturning).2 _ hfalls
  rw [if_neg hblocks] at hpath
  exact ⟨hfalls, hpath⟩

end Stmt
end EdeLang
