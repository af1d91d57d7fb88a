import EdeLang.Evaluation.Eval
import EdeLang.Typing.FlowGraph
import Mathlib.Algebra.BigOperators.Fin
import Mathlib.Algebra.Order.BigOperators.Group.Finset

/-!
# Functions that return

A body whose flow graph shows no way to fall off its end never ends normally when it is executed.
The argument goes through the paths of the graph: an execution that ends normally follows a path
to the exit that no return is on, and the search finds every node on a path.
-/

namespace EdeLang

mutual

/-- Control can pass the end of the statement, if conditions may turn out either way. -/
def Stmt.Passes : Stmt → Prop
  | .block _ stmts => Stmt.PassesAll stmts
  | .cond _ _ _ none => True
  | .cond _ _ yes (some no) => Stmt.Passes yes ∨ Stmt.Passes no
  | .ret _ _ => False
  | .loop _ _ _ | .var _ _ _ _ | .expr _ _ => True

def Stmt.PassesAll : List Stmt → Prop
  | [] => True
  | s :: ss => Stmt.Passes s ∧ Stmt.PassesAll ss

end

section Exec

variable {call : Calls} {rounds : Nat}

private theorem inScope_normal {action : Action Flow} {env env' : Env} {v : Value}
    (h : inScope action env = .ok (.normal v, env')) :
    ∃ env'', action env.enter = .ok (.normal v, env'') := by
  unfold inScope at h
  cases haction : action env.enter with
  | error e => simp [haction, Except.map] at h
  | ok result =>
    obtain ⟨flow, env''⟩ := result
    simp only [haction, Except.map, Except.ok.injEq, Prod.mk.injEq] at h
    exact ⟨env'', by rw [h.1]⟩

mutual

/-- A statement that ends normally can be passed. -/
theorem Stmt.passes_of_exec : ∀ (s : Stmt) {env env' : Env} {v : Value},
    s.exec call rounds env = .ok (.normal v, env') → s.Passes
  | .var _ _ _ _, _, _, _, _ | .expr _ _, _, _, _, _ | .loop _ _ _, _, _, _, _
  | .cond _ _ _ none, _, _, _, _ => trivial
  | .block _ stmts, _, _, _, h => by
    obtain ⟨env'', hall⟩ := inScope_normal (by simpa only [Stmt.exec] using h)
    exact Stmt.passesAll_of_execAll stmts hall
  | .cond _ test yes (some no), env, _, _, h => by
    simp only [Stmt.exec] at h
    cases htest : test.holds call env with
    | error e => simp [htest] at h
    | ok result =>
      obtain ⟨truth, env₁⟩ := result
      cases truth with
      | true =>
        obtain ⟨env'', hyes⟩ := inScope_normal (by simpa only [htest] using h)
        exact .inl (Stmt.passes_of_exec yes hyes)
      | false =>
        obtain ⟨env'', hno⟩ := inScope_normal (by simpa only [htest] using h)
        exact .inr (Stmt.passes_of_exec no hno)
  | .ret _ none, _, _, _, h => by simp [Stmt.exec] at h
  | .ret _ (some e), env, _, _, h => by
    simp only [Stmt.exec] at h
    cases he : e.eval call env <;> simp [he, Except.map] at h

theorem Stmt.passesAll_of_execAll : ∀ (ss : List Stmt) {last v : Value} {env env' : Env},
    Stmt.execAll call rounds last ss env = .ok (.normal v, env') → Stmt.PassesAll ss
  | [], _, _, _, _, _ => trivial
  | s :: ss, last, v, env, env', h => by
    simp only [Stmt.execAll] at h
    cases hs : s.exec call rounds env with
    | error e => simp [hs] at h
    | ok result =>
      obtain ⟨flow, env₁⟩ := result
      cases flow with
      | returned w => simp [hs] at h
      | normal w =>
        have hrest : Stmt.execAll call rounds w ss env₁ = .ok (.normal v, env') := by
          simpa only [hs] using h
        exact ⟨Stmt.passes_of_exec s hs, Stmt.passesAll_of_execAll ss hrest⟩

end

end Exec

namespace FlowGraph

/-- Control that goes along an edge can come to the node. -/
inductive Leads (g : FlowGraph) : Edge → Nat → Prop
  | here (i : Nat) : Leads g (.node i) i
  | onward {i j : Nat} {e : Edge} (edge : e ∈ g.successors i) (rest : Leads g e j) :
      Leads g (.node i) j

theorem Leads.trans {g : FlowGraph} {e f : Edge} {i j : Nat} (first : g.Leads e i)
    (edge : f ∈ g.successors i) (rest : g.Leads f j) : g.Leads e j := by
  induction first with
  | here i => exact .onward edge rest
  | onward edge' _ ih => exact .onward edge' (ih edge)

/-- A node from which control goes on to `next`, and which is no return. -/
def PassesTo (g : FlowGraph) (next : Edge) (i : Nat) : Prop :=
  ∃ stmt succ, g.nodes[i]? = some (stmt, succ) ∧ next ∈ succ ∧ stmt.isReturn = false

/-- Along an edge control comes to `next` without a return, at once or through a last node. -/
def Comes (g : FlowGraph) (entry next : Edge) : Prop :=
  entry = next ∨ ∃ i, g.Leads entry i ∧ g.PassesTo next i

theorem PassesTo.mem_successors {g : FlowGraph} {next : Edge} {i : Nat}
    (h : g.PassesTo next i) : next ∈ g.successors i := by
  obtain ⟨stmt, succ, hnode, hmem, _⟩ := h
  simpa [successors, hnode] using hmem

theorem Comes.trans {g : FlowGraph} {entry middle next : Edge} (first : g.Comes entry middle)
    (second : g.Comes middle next) : g.Comes entry next := by
  rcases first with rfl | ⟨i, hlead, hpass⟩
  · exact second
  · rcases second with rfl | ⟨j, hlead', hpass'⟩
    · exact .inr ⟨i, hlead, hpass⟩
    · exact .inr ⟨j, hlead.trans hpass.mem_successors hlead', hpass'⟩

theorem comes_of_node {g : FlowGraph} {i : Nat} {stmt : Stmt} {succ : List Edge}
    {e next : Edge} (hnode : g.nodes[i]? = some (stmt, succ)) (hreturn : stmt.isReturn = false)
    (he : e ∈ succ) (hcomes : g.Comes e next) : g.Comes (.node i) next := by
  have hpass : g.PassesTo e i := ⟨stmt, succ, hnode, he, hreturn⟩
  exact Comes.trans (.inr ⟨i, .here i, hpass⟩) hcomes

def Contains (g : FlowGraph) (base : Nat) (nodes : List (Stmt × List Edge)) : Prop :=
  ∀ k n, nodes[k]? = some n → g.nodes[base + k]? = some n

theorem Contains.head {g : FlowGraph} {base : Nat} {n : Stmt × List Edge}
    {nodes : List (Stmt × List Edge)} (h : g.Contains base (n :: nodes)) :
    g.nodes[base]? = some n := h 0 n rfl

theorem Contains.tail {g : FlowGraph} {base : Nat} {n : Stmt × List Edge}
    {nodes : List (Stmt × List Edge)} (h : g.Contains base (n :: nodes)) :
    g.Contains (base + 1) nodes := by
  intro k node hk
  have hnode := h (k + 1) node (by simpa using hk)
  rwa [Nat.add_assoc, Nat.add_comm 1 k]

theorem Contains.left {g : FlowGraph} {base : Nat} {xs ys : List (Stmt × List Edge)}
    (h : g.Contains base (xs ++ ys)) : g.Contains base xs := by
  intro k node hk
  have hlt : k < xs.length := (List.getElem?_eq_some_iff.mp hk).1
  exact h k node (by rw [List.getElem?_append_left hlt]; exact hk)

theorem Contains.right {g : FlowGraph} {base : Nat} {xs ys : List (Stmt × List Edge)}
    (h : g.Contains base (xs ++ ys)) : g.Contains (base + xs.length) ys := by
  intro k node hk
  have hnode := h (xs.length + k) node (by
    rw [List.getElem?_append_right (Nat.le_add_right _ _), Nat.add_sub_cancel_left]; exact hk)
  rwa [Nat.add_assoc]

mutual

/-- Control can come through the nodes of a statement that can be passed. -/
theorem comes_of_passes {g : FlowGraph} : ∀ (s : Stmt) (base : Nat) (next : Edge),
    g.Contains base (link base next s).1 → s.Passes → g.Comes (link base next s).2 next
  | .block _ stmts, base, next, hg, hp => by
    simp only [link] at hg ⊢
    exact comes_of_passesAll stmts base next hg hp
  | .cond info test yes none, base, next, hg, _ => by
    simp only [link] at hg ⊢
    exact comes_of_node hg.head rfl (by simp) (.inl rfl)
  | .cond info test yes (some no), base, next, hg, hp => by
    simp only [link] at hg ⊢
    rcases hp with hyes | hno
    · exact comes_of_node hg.head rfl (by simp)
        (comes_of_passes yes (base + 1) next hg.tail.left hyes)
    · exact comes_of_node hg.head rfl (by simp)
        (comes_of_passes no _ next hg.tail.right hno)
  | .loop info test body, base, next, hg, _ => by
    simp only [link] at hg ⊢
    exact comes_of_node hg.head rfl (by simp) (.inl rfl)
  | .var info name type init, base, next, hg, _ => by
    simp only [link] at hg ⊢
    exact comes_of_node hg.head rfl (by simp) (.inl rfl)
  | .expr info e, base, next, hg, _ => by
    simp only [link] at hg ⊢
    exact comes_of_node hg.head rfl (by simp) (.inl rfl)
  | .ret _ _, _, _, _, hp => hp.elim

theorem comes_of_passesAll {g : FlowGraph} : ∀ (ss : List Stmt) (base : Nat) (next : Edge),
    g.Contains base (linkAll base next ss).1 → Stmt.PassesAll ss →
      g.Comes (linkAll base next ss).2 next
  | [], _, _, _, _ => .inl rfl
  | s :: ss, base, next, hg, hp => by
    simp only [linkAll] at hg ⊢
    exact Comes.trans (comes_of_passes s _ _ hg.right hp.1)
      (comes_of_passesAll ss base next hg.left hp.2)

end

private def outgoing (g : FlowGraph) (found : List Nat) : Nat :=
  (found.map fun i => (g.successors i).length).sum

private theorem edgeCount_eq (g : FlowGraph) :
    g.edgeCount = ∑ i ∈ Finset.range g.nodes.length, (g.successors i).length := by
  have hsum : g.edgeCount = (g.nodes.map fun n => n.2.length).sum := by
    rw [edgeCount, List.sum_eq_foldr, List.foldr_map]
  rw [hsum, ← Fin.sum_univ_fun_getElem, Finset.sum_range]
  refine Finset.sum_congr rfl fun i _ => ?_
  simp [successors]

private theorem outgoing_le {g : FlowGraph} {found : List Nat} (hnodup : found.Nodup) :
    g.outgoing found ≤ g.edgeCount := by
  rw [outgoing, ← List.sum_toFinset _ hnodup, edgeCount_eq]
  refine Finset.sum_le_sum_of_ne_zero fun i _ hi => ?_
  by_contra hout
  have hnone : g.nodes[i]? = none := by simpa using hout
  simp [successors, hnone] at hi

def Closed (g : FlowGraph) (nodes : List Nat) : Prop :=
  ∀ i ∈ nodes, ∀ j, .node j ∈ g.successors i → j ∈ nodes

theorem mem_nodes {edges : List Edge} {j : Nat} :
    j ∈ edges.filterMap Edge.node? ↔ .node j ∈ edges := by
  rw [List.mem_filterMap]
  refine ⟨fun ⟨e, he, hj⟩ => ?_, fun h => ⟨_, h, rfl⟩⟩
  cases e with
  | node i => simp only [Edge.node?, Option.some.injEq] at hj; exact hj ▸ he
  | exit => simp [Edge.node?] at hj

/-- The search from a queue, where `found` has been visited, ends with a result. Each round takes
the first node of the queue, and the search ends when the queue is empty. -/
inductive Searches (g : FlowGraph) : List Nat → List Nat → List Nat → Prop
  | done {found : List Nat} : Searches g [] found found
  | again {i : Nat} {queue found result : List Nat} (seen : i ∈ found)
      (rest : Searches g queue found result) : Searches g (i :: queue) found result
  | visit {i : Nat} {queue found result : List Nat} (new : i ∉ found)
      (rest : Searches g (queue ++ (g.successors i).filterMap Edge.node?) (found ++ [i]) result) :
      Searches g (i :: queue) found result

-- Every visit of a node pays for the edges that it adds to the queue, so with as much fuel as
-- there are edges left the queue is empty at the end.
private theorem searches_search (g : FlowGraph) (fuel : Nat) (queue found : List Nat)
    (hnodup : found.Nodup) (hfuel : queue.length + g.edgeCount ≤ fuel + g.outgoing found) :
    g.Searches queue found (g.search fuel queue found) := by
  induction fuel, queue, found using FlowGraph.search.induct g with
  | case1 queue found =>
    have hle := outgoing_le (g := g) hnodup
    obtain rfl : queue = [] := List.eq_nil_of_length_eq_zero (by omega)
    exact .done
  | case2 fuel found => exact .done
  | case3 fuel i queue found hi ih =>
    rw [List.length_cons] at hfuel
    simp only [search, hi, if_true]
    exact .again (by simpa using hi) (ih hnodup (by omega))
  | case4 fuel i queue found hi ih =>
    have hnew : i ∉ found := by simpa using hi
    have hlength : ((g.successors i).filterMap Edge.node?).length ≤ (g.successors i).length :=
      List.length_filterMap_le _ _
    have hout : g.outgoing (found ++ [i]) = g.outgoing found + (g.successors i).length := by
      simp [outgoing]
    rw [List.length_cons] at hfuel
    simp only [search, hi, if_false, Bool.false_eq_true]
    have hnodup' : (found ++ [i]).Nodup := by
      rw [← List.concat_eq_append]
      exact hnodup.concat hnew
    refine .visit hnew (ih hnodup' ?_)
    rw [List.length_append, hout]
    omega

theorem searches_reachable (g : FlowGraph) :
    g.Searches g.entry.node?.toList [] g.reachable := by
  have hqueue : g.entry.node?.toList.length ≤ 1 := by cases g.entry <;> simp [Edge.node?]
  refine searches_search g _ _ _ List.nodup_nil ?_
  simp only [outgoing, List.map_nil, List.sum_nil]
  omega

/-- What the search finds is closed, if so far all edges lead to found or waiting nodes. -/
theorem Searches.closed {g : FlowGraph} {queue found result : List Nat}
    (h : g.Searches queue found result)
    (hedges : ∀ i ∈ found, ∀ j, .node j ∈ g.successors i → j ∈ found ∨ j ∈ queue) :
    (∀ i, i ∈ found ∨ i ∈ queue → i ∈ result) ∧ g.Closed result := by
  induction h with
  | done => simpa [Closed] using hedges
  | again seen _ ih =>
    obtain ⟨hall, hclosed⟩ := ih (by grind)
    exact ⟨by grind, hclosed⟩
  | @visit i queue found result new _ ih =>
    obtain ⟨hall, hclosed⟩ := ih (by
      intro k hk j hj
      rcases List.mem_append.mp hk with hk | hk
      · have := hedges k hk j hj
        grind
      · rw [List.mem_singleton] at hk
        subst hk
        exact .inr (List.mem_append_right _ (mem_nodes.mpr hj)))
    exact ⟨by grind, hclosed⟩

/-- The search finds every node to which control can come. -/
theorem mem_reachable_of_leads {g : FlowGraph} {i : Nat} (h : g.Leads g.entry i) :
    i ∈ g.reachable := by
  obtain ⟨hfound, hclosed⟩ := g.searches_reachable.closed (by simp)
  have hstart : ∀ j, g.entry = .node j → j ∈ g.reachable :=
    fun j hj => hfound j (.inr (by simp [hj, Edge.node?]))
  clear hfound
  generalize g.entry = e at h hstart
  induction h with
  | here i => exact hstart i rfl
  | onward edge _ ih =>
    have hi := hstart _ rfl
    exact ih fun j hj => hclosed _ hi j (hj ▸ edge)

end FlowGraph

theorem Stmt.not_passes_of_fallsOff {body : Stmt} (h : body.fallsOff? = none) :
    ¬ body.Passes := by
  intro hpasses
  have hcomes : (FlowGraph.ofBody body).Comes (FlowGraph.ofBody body).entry .exit :=
    FlowGraph.comes_of_passes body 0 .exit (fun k n hk => by simpa [FlowGraph.ofBody] using hk)
      hpasses
  unfold Stmt.fallsOff? FlowGraph.fallsOff? at h
  rcases hcomes with hexit | ⟨i, hlead, stmt, succ, hnode, hmem, hreturn⟩
  · simp [hexit] at h
  · cases hentry : (FlowGraph.ofBody body).entry with
    | exit => simp [hentry] at h
    | node k =>
      simp only [hentry, List.findSome?_eq_none_iff] at h
      have hleak := h i (FlowGraph.mem_reachable_of_leads hlead)
      simp [FlowGraph.leak?, hnode, hmem, hreturn] at hleak

/-- A body from which control cannot fall off ends with a return, if it ends. -/
theorem Stmt.exec_returned_of_fallsOff {body : Stmt} {call : Calls} {rounds : Nat}
    {env env' : Env} {flow : Flow} (h : body.fallsOff? = none)
    (hexec : body.exec call rounds env = .ok (flow, env')) : ∃ v, flow = .returned v := by
  cases flow with
  | returned v => exact ⟨v, rfl⟩
  | normal v => exact absurd (body.passes_of_exec hexec) (Stmt.not_passes_of_fallsOff h)

end EdeLang
