import EdeLang.Proofs.Typing.Paths
import Mathlib.Order.Lattice.Nat

/-!
# The search of a flow graph

The graph of a body has one node for each statement in it that is no block, and its edges lead to
its nodes. The search ends. It finds each node to which control can come once, and the nearer ones
first: the queue holds the nodes of one distance and behind them those of the next.
-/

namespace EdeLang

namespace Stmt

def isBlock : Stmt → Bool
  | .block _ _ => true
  | _ => false

mutual

/-- The statements in a statement, each in front of its parts. -/
def parts : Stmt → List Stmt
  | .block info stmts => .block info stmts :: partsAll stmts
  | .cond info test yes none => .cond info test yes none :: parts yes
  | .cond info test yes (some no) => .cond info test yes (some no) :: (parts yes ++ parts no)
  | .loop info test body => .loop info test body :: parts body
  | .var info name type init => [.var info name type init]
  | .expr info e => [.expr info e]
  | .ret info value => [.ret info value]

def partsAll : List Stmt → List Stmt
  | [] => []
  | s :: ss => parts s ++ partsAll ss

end

end Stmt

/-- The edge leads to one of so many nodes, or out of the body. -/
def Edge.Within (count : Nat) : Edge → Prop
  | .node i => i < count
  | .exit => True

namespace FlowGraph

mutual

/-- A statement has one node for each of its parts that is no block. -/
theorem link_perm (s : Stmt) (base : Nat) (next : Edge) :
    ((link base next s).1.map Prod.fst).Perm (s.parts.filter (!·.isBlock)) := by
  cases s with
  | block info stmts => exact linkAll_perm stmts base next
  | cond info test yes no =>
    have hyes := link_perm yes (base + 1) next
    cases no with
    | none => exact hyes.cons _
    | some s =>
      have hno := link_perm s (base + 1 + (link (base + 1) next yes).1.length) next
      simp only [link, Stmt.parts, List.map_cons, List.map_append, List.filter_cons,
        List.filter_append, Stmt.isBlock, Bool.not_false, if_true]
      exact (hyes.append hno).cons _
  | loop info test body => exact (link_perm body (base + 1) (.node base)).cons _
  | ret info value | var info name type init | expr info e => exact .refl _
termination_by structural s

-- The statements of a block are linked from the last one on.
theorem linkAll_perm (ss : List Stmt) (base : Nat) (next : Edge) :
    ((linkAll base next ss).1.map Prod.fst).Perm
      ((Stmt.partsAll ss).filter (!·.isBlock)) := by
  cases ss with
  | nil => exact .refl _
  | cons s ss =>
    have hlater := linkAll_perm ss base next
    have hfirst := link_perm s (base + (linkAll base next ss).1.length) (linkAll base next ss).2
    simp only [linkAll, Stmt.partsAll, List.map_append, List.filter_append]
    exact (hlater.append hfirst).trans List.perm_append_comm
termination_by structural ss

end

mutual

theorem link_within (s : Stmt) (base : Nat) (next : Edge) {count : Nat}
    (hnext : next.Within count) (hcount : base + (link base next s).1.length ≤ count) :
    (link base next s).2.Within count ∧
      ∀ n ∈ (link base next s).1, ∀ e ∈ n.2, e.Within count := by
  cases s with
  | block info stmts => exact linkAll_within stmts base next hnext hcount
  | cond info test yes no =>
    cases no with
    | none =>
      simp only [link, List.length_cons] at hcount
      have hbase : Edge.Within count (.node base) := by rw [Edge.Within]; omega
      obtain ⟨hentry, hnodes⟩ := link_within yes (base + 1) next hnext (by omega)
      simp only [link, List.forall_mem_cons]
      exact ⟨hbase, ⟨hentry, hnext, by simp⟩, hnodes⟩
    | some s =>
      simp only [link, List.length_cons, List.length_append] at hcount
      have hbase : Edge.Within count (.node base) := by rw [Edge.Within]; omega
      obtain ⟨hyes, hyesNodes⟩ := link_within yes (base + 1) next hnext (by omega)
      obtain ⟨hno, hnoNodes⟩ := link_within s
        (base + 1 + (link (base + 1) next yes).1.length) next hnext (by omega)
      simp only [link, List.forall_mem_cons, List.forall_mem_append]
      exact ⟨hbase, ⟨hyes, hno, by simp⟩, hyesNodes, hnoNodes⟩
  | loop info test body =>
    simp only [link, List.length_cons] at hcount
    have hbase : Edge.Within count (.node base) := by rw [Edge.Within]; omega
    obtain ⟨hentry, hnodes⟩ := link_within body (base + 1) (.node base) hbase (by omega)
    simp only [link, List.forall_mem_cons]
    exact ⟨hbase, ⟨hentry, hnext, by simp⟩, hnodes⟩
  | ret info value =>
    have hbase : Edge.Within count (.node base) := hcount
    exact ⟨hbase, by simp [link, Edge.Within]⟩
  | var info name type init | expr info e =>
    have hbase : Edge.Within count (.node base) := hcount
    exact ⟨hbase, by simpa [link] using hnext⟩
termination_by structural s

theorem linkAll_within (ss : List Stmt) (base : Nat) (next : Edge) {count : Nat}
    (hnext : next.Within count) (hcount : base + (linkAll base next ss).1.length ≤ count) :
    (linkAll base next ss).2.Within count ∧
      ∀ n ∈ (linkAll base next ss).1, ∀ e ∈ n.2, e.Within count := by
  cases ss with
  | nil => exact ⟨hnext, by simp [linkAll]⟩
  | cons s ss =>
    simp only [linkAll, List.length_append] at hcount
    obtain ⟨hfollowing, hlater⟩ := linkAll_within ss base next hnext (by omega)
    obtain ⟨hentry, hnodes⟩ := link_within s (base + (linkAll base next ss).1.length)
      (linkAll base next ss).2 hfollowing (by omega)
    simp only [linkAll, List.forall_mem_append]
    exact ⟨hentry, hlater, hnodes⟩
termination_by structural ss

end

/-- All edges of the graph lead to its nodes, the edge into it as well. -/
structure WellFormed (g : FlowGraph) : Prop where
  entry : g.entry.Within g.nodes.length
  edges : ∀ n ∈ g.nodes, ∀ e ∈ n.2, e.Within g.nodes.length

theorem wellFormed_ofBody (body : Stmt) : (ofBody body).WellFormed := by
  have hcount : 0 + (link 0 .exit body).1.length ≤ (ofBody body).nodes.length := by
    rw [Nat.zero_add]
    exact Nat.le_refl _
  obtain ⟨hentry, hedges⟩ := link_within body 0 .exit trivial hcount
  exact ⟨hentry, hedges⟩

variable {g : FlowGraph}

theorem WellFormed.lt_of_mem_successors {i j : Nat} (h : g.WellFormed)
    (hj : .node j ∈ g.successors i) : j < g.nodes.length := by
  cases hi : g.nodes[i]? with
  | none => simp [successors, hi] at hj
  | some n =>
    have hmem : .node j ∈ n.2 := by simpa [successors, hi] using hj
    exact h.edges n (List.mem_of_getElem? hi) _ hmem

/-- Control can come from the entry to the node over so many edges. -/
inductive Arrives (g : FlowGraph) : Nat → Nat → Prop
  | entry {i : Nat} (start : g.entry = .node i) : Arrives g 0 i
  | onward {n i j : Nat} (first : Arrives g n i) (edge : .node j ∈ g.successors i) :
      Arrives g (n + 1) j

/-- The number of edges on a shortest way from the entry to the node. -/
noncomputable def distance (g : FlowGraph) (i : Nat) : Nat := sInf {n | g.Arrives n i}

theorem Arrives.distance_le {n i : Nat} (h : g.Arrives n i) : g.distance i ≤ n := Nat.sInf_le h

theorem Arrives.at_distance {n i : Nat} (h : g.Arrives n i) : g.Arrives (g.distance i) i :=
  Nat.sInf_mem (s := {n | g.Arrives n i}) ⟨n, h⟩

theorem Arrives.lt_length {n i : Nat} (hg : g.WellFormed) (h : g.Arrives n i) :
    i < g.nodes.length := by
  cases h with
  | entry start =>
    have hentry := hg.entry
    rwa [start] at hentry
  | onward _ edge => exact hg.lt_of_mem_successors edge

theorem Arrives.leads {n i : Nat} (h : g.Arrives n i) : g.Leads g.entry i := by
  induction h with
  | entry start => rw [start]; exact .here _
  | onward _ edge ih => exact ih.onto edge

theorem Arrives.of_leads {n i j : Nat} {e : Edge} (hi : g.Arrives n i)
    (edge : e ∈ g.successors i) (h : g.Leads e j) : ∃ m, g.Arrives m j := by
  induction h generalizing n i with
  | here k => exact ⟨n + 1, hi.onward edge⟩
  | onward edge' _ ih => exact ih (hi.onward edge) edge'

theorem leads_iff_arrives {i : Nat} : g.Leads g.entry i ↔ ∃ n, g.Arrives n i := by
  constructor
  · intro h
    cases hentry : g.entry with
    | exit => rw [hentry] at h; cases h
    | node k =>
      rw [hentry] at h
      cases h with
      | here _ => exact ⟨0, .entry hentry⟩
      | onward edge rest => exact Arrives.of_leads (.entry hentry) edge rest
  · rintro ⟨n, hn⟩
    exact hn.leads

theorem mem_reachable {i : Nat} : i ∈ g.reachable ↔ ∃ n, g.Arrives n i := by
  rw [← leads_iff_arrives]
  exact ⟨leads_of_mem_reachable, mem_reachable_of_leads⟩

theorem Searches.unique {queue found result result' : List Nat}
    (h : g.Searches queue found result) (h' : g.Searches queue found result') :
    result' = result := by
  induction h with
  | done => cases h'; rfl
  | again seen _ ih =>
    cases h' with
    | again _ rest => exact ih rest
    | visit new _ => exact absurd seen new
  | visit new _ ih =>
    cases h' with
    | again seen _ => exact absurd seen new
    | visit _ rest => exact ih rest

theorem Searches.nodup {queue found result : List Nat} (h : g.Searches queue found result)
    (hfound : found.Nodup) : result.Nodup := by
  induction h with
  | done => exact hfound
  | again _ _ ih => exact ih hfound
  | visit new _ ih =>
    refine ih ?_
    rw [← List.concat_eq_append]
    exact hfound.concat new

/-- The queue of a search consists of nodes at a distance `d` and of nodes one edge behind them.
All nearer nodes have been found, in the order of their distances. -/
structure Layers (g : FlowGraph) (d : Nat) (near far found : List Nat) : Prop where
  near_arrives : ∀ i ∈ near, g.Arrives d i
  far_arrives : ∀ i ∈ far, g.Arrives (d + 1) i
  closed : ∀ i ∈ found, ∀ j, .node j ∈ g.successors i → j ∈ found ∨ j ∈ near ∨ j ∈ far
  nearer : ∀ n < d, ∀ i, g.Arrives n i → i ∈ found
  complete : ∀ i, g.Arrives d i → i ∈ found ∨ i ∈ near
  found_le : ∀ i ∈ found, g.distance i ≤ d
  sorted : found.Pairwise (g.distance · ≤ g.distance ·)

namespace Layers

variable {d i : Nat} {near far found : List Nat}

theorem start (g : FlowGraph) : g.Layers 0 g.entry.node?.toList [] [] where
  near_arrives i hi := by
    cases hentry : g.entry with
    | exit => simp [hentry, Edge.node?] at hi
    | node k =>
      obtain rfl : i = k := by simpa [hentry, Edge.node?] using hi
      exact .entry hentry
  far_arrives := by simp
  closed := by simp
  nearer := by simp
  complete i hi := by
    cases hi with
    | entry start => simp [start, Edge.node?]
  found_le := by simp
  sorted := .nil

/-- When no node is left at a distance, the search goes on to the next. -/
theorem onward (h : g.Layers d [] far found) : g.Layers (d + 1) far [] found where
  near_arrives := h.far_arrives
  far_arrives := by simp
  closed i hi j hj := by simpa using h.closed i hi j hj
  nearer n hn i hi := by
    rcases Nat.lt_succ_iff_lt_or_eq.mp hn with hlt | rfl
    · exact h.nearer n hlt i hi
    · simpa using h.complete i hi
  complete i hi := by
    cases hi with
    | @onward _ k _ first edge =>
      have hk : k ∈ found := by simpa using h.complete k first
      simpa using h.closed k hk i edge
  found_le i hi := (h.found_le i hi).trans d.le_succ
  sorted := h.sorted

theorem first {queue : List Nat} (h : g.Layers d near far found)
    (hqueue : near ++ far = i :: queue) :
    ∃ d near far, g.Layers d (i :: near) far found ∧ queue = near ++ far := by
  cases near with
  | nil =>
    obtain rfl : far = i :: queue := hqueue
    exact ⟨d + 1, queue, [], h.onward, by simp⟩
  | cons k near =>
    obtain ⟨rfl, rfl⟩ : k = i ∧ near ++ far = queue := by simpa using hqueue
    exact ⟨d, near, far, h, rfl⟩

theorem again (h : g.Layers d (i :: near) far found) (seen : i ∈ found) :
    g.Layers d near far found where
  near_arrives j hj := h.near_arrives j (List.mem_cons_of_mem i hj)
  far_arrives := h.far_arrives
  closed j hj k hk := by
    have hor := h.closed j hj k hk
    grind
  nearer := h.nearer
  complete j hj := by
    have hor := h.complete j hj
    grind
  found_le := h.found_le
  sorted := h.sorted

/-- A node that has not been found when its turn comes is at the distance of the layer. -/
theorem distance_eq (h : g.Layers d (i :: near) far found) (new : i ∉ found) :
    g.distance i = d := by
  have hi : g.Arrives d i := h.near_arrives i List.mem_cons_self
  refine hi.distance_le.antisymm (Nat.le_of_not_lt fun hlt => new ?_)
  exact h.nearer _ hlt i hi.at_distance

theorem visit (h : g.Layers d (i :: near) far found) (new : i ∉ found) :
    g.Layers d near (far ++ (g.successors i).filterMap Edge.node?) (found ++ [i]) where
  near_arrives j hj := h.near_arrives j (List.mem_cons_of_mem i hj)
  far_arrives j hj := by
    rcases List.mem_append.mp hj with hj | hj
    · exact h.far_arrives j hj
    · exact (h.near_arrives i List.mem_cons_self).onward (mem_nodes.mp hj)
  closed j hj k hk := by
    rcases List.mem_append.mp hj with hj | hj
    · have hor := h.closed j hj k hk
      grind
    · rw [List.mem_singleton.mp hj] at hk
      exact .inr (.inr (List.mem_append_right far (mem_nodes.mpr hk)))
  nearer n hn j hj := List.mem_append_left _ (h.nearer n hn j hj)
  complete j hj := by
    have hor := h.complete j hj
    grind
  found_le j hj := by
    rcases List.mem_append.mp hj with hj | hj
    · exact h.found_le j hj
    · rw [List.mem_singleton.mp hj, h.distance_eq new]
  sorted := by
    refine List.pairwise_append.mpr ⟨h.sorted, List.pairwise_singleton _ _, fun j hj k hk => ?_⟩
    rw [List.mem_singleton.mp hk, h.distance_eq new]
    exact h.found_le j hj

end Layers

/-- The search finds nodes in the order of their distances. -/
theorem Searches.sorted {queue found result : List Nat} (h : g.Searches queue found result)
    {d : Nat} {near far : List Nat} (hlayers : g.Layers d near far found)
    (hqueue : near ++ far = queue) : result.Pairwise (g.distance · ≤ g.distance ·) := by
  induction h generalizing d near far with
  | done => exact hlayers.sorted
  | again seen _ ih =>
    obtain ⟨d', near', far', hfirst, rfl⟩ := hlayers.first hqueue
    exact ih (hfirst.again seen) rfl
  | visit new _ ih =>
    obtain ⟨d', near', far', hfirst, rfl⟩ := hlayers.first hqueue
    exact ih (hfirst.visit new) (List.append_assoc _ _ _).symm

/-- The graph of a body has one node for each statement in it that is no block, and all of its edges
lead to its nodes. The search from the entry ends, with a list of exactly the nodes to which control
can come, without repetition and in the order of their distances. -/
theorem reachable_breadthFirst (body : Stmt) :
    ((ofBody body).nodes.map Prod.fst).Perm (body.parts.filter (!·.isBlock)) ∧
    (ofBody body).WellFormed ∧
    (∀ found, (ofBody body).Searches (ofBody body).entry.node?.toList [] found ↔
      found = (ofBody body).reachable) ∧
    (ofBody body).reachable.Nodup ∧
    (∀ i, i ∈ (ofBody body).reachable ↔
      i < (ofBody body).nodes.length ∧ ∃ n, (ofBody body).Arrives n i) ∧
    (ofBody body).reachable.Pairwise ((ofBody body).distance · ≤ (ofBody body).distance ·) := by
  have hsearch := (ofBody body).searches_reachable
  have hwell := wellFormed_ofBody body
  refine ⟨link_perm body 0 .exit, hwell, fun found => ⟨hsearch.unique, ?_⟩,
    hsearch.nodup .nil, fun i => ?_, hsearch.sorted (.start _) (List.append_nil _)⟩
  · rintro rfl
    exact hsearch
  · rw [mem_reachable]
    constructor
    · rintro ⟨n, hn⟩
      exact ⟨hn.lt_length hwell, n, hn⟩
    · exact And.right

-- The last statement has the first number, so nodes are not found in the order of their numbers.
example : (ofBody (.block (.at ⟨1, 1⟩) [.expr (.at ⟨2, 1⟩) (.ident (.at ⟨2, 1⟩) "a"),
    .cond (.at ⟨3, 1⟩) (.ident (.at ⟨3, 4⟩) "b") (.ret (.at ⟨3, 7⟩) none) none,
    .expr (.at ⟨4, 1⟩) (.ident (.at ⟨4, 1⟩) "c")])).reachable = [3, 1, 2, 0] := by decide

end FlowGraph
end EdeLang
