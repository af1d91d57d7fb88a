import EdeLang.Proofs.Machine.Reach

/-!
# Effects of instructions

What the instructions of lowered code do to the stack and the heap of a machine, stated for a
machine that is poised at an instruction with its stack written as a list.
-/

namespace EdeLang

namespace Word

@[simp]
theorem toInt_ofInt (v : Int64) : (ofInt v).toInt = v := by
  simp [ofInt, toInt]

theorem toNat_ofInt_ofNat {k : Nat} (h : k < 2 ^ 64) : (ofInt (Int64.ofNat k)).toNat = k := by
  have hbits : (Int64.ofNat k).toUInt64 = UInt64.ofNat k := rfl
  simp only [ofInt, toNat, hbits, UInt64.toNat_ofNat']
  exact Nat.mod_eq_of_lt h

theorem toNat_ofNat {k : Nat} (h : k < 2 ^ 64) : (ofNat k).toNat = k := by
  simp only [ofNat, toNat, UInt64.toNat_ofNat']
  exact Nat.mod_eq_of_lt h

end Word

namespace Heap

/-- The second heap has the blocks of the first and perhaps more. -/
def Extends (h h' : Heap) : Prop := ∃ more, h'.blocks = h.blocks ++ more

theorem Extends.refl (h : Heap) : h.Extends h := ⟨#[], by simp⟩

theorem Extends.trans {h h' h'' : Heap} (first : h.Extends h') (second : h'.Extends h'') :
    h.Extends h'' := by
  obtain ⟨more, hmore⟩ := first
  obtain ⟨more', hmore'⟩ := second
  exact ⟨more ++ more', by rw [hmore', hmore, Array.append_assoc]⟩

theorem Extends.block? {h h' : Heap} (ext : h.Extends h') {handle : Int64} {block : Array Word}
    (hblock : h.block? handle = some block) : h'.block? handle = some block := by
  obtain ⟨more, hmore⟩ := ext
  unfold Heap.block? at hblock ⊢
  cases hindex : index? handle with
  | none => simp [hindex] at hblock
  | some k =>
    simp only [hindex, hmore] at hblock ⊢
    cases hk : h.blocks[k]? with
    | none => simp [hk] at hblock
    | some found =>
      have hlt : k < h.blocks.size := (Array.getElem?_eq_some_iff.mp hk).1
      rw [Array.getElem?_append_left hlt, hk]
      rw [hk] at hblock
      exact hblock

private theorem index?_ofNat_succ {k : Nat} (h : k + 1 < 2 ^ 63) :
    index? (Int64.ofNat (k + 1)) = some k := by
  have hint : (Int64.ofNat (k + 1)).toInt = (k + 1 : Nat) := by
    rw [Int64.toInt_ofNat_of_lt h]
  rw [index?, hint, if_pos (by omega)]
  congr 1
  omega

/-- A block that fits is found under its new handle. -/
theorem alloc_spec (h : Heap) (block : Array Word) :
    (∃ limit, h.alloc block = .error (.heapExhausted limit)) ∨
      ∃ h', h.alloc block = .ok (h', Int64.ofNat (h.blocks.size + 1)) ∧ h.Extends h' ∧
        h'.blocks.size = h.blocks.size + 1 ∧
        (h'.blocks.size < 2 ^ 63 →
          h'.block? (Int64.ofNat (h.blocks.size + 1)) = some block) := by
  by_cases hroom : h.used + block.size ≤ h.limit
  · refine .inr ⟨⟨h.blocks.push (some block), h.used + block.size, h.limit⟩, ?_, ?_, ?_, ?_⟩
    · simp [alloc, allocWith, hroom]
    · exact ⟨#[some block], by simp⟩
    · simp
    · intro hsize
      have hindex := index?_ofNat_succ (k := h.blocks.size) (by simpa using hsize)
      rw [Heap.block?, hindex]
      simp
  · exact .inl ⟨h.limit, by simp [alloc, allocWith, hroom]⟩

end Heap

namespace Machine

def poised (m : Machine) (ip : Nat) (stack : List Word) (heap : Heap) : Machine :=
  { m with ip, stack := stack.toArray, heap }

section Fields

variable (m : Machine) (ip : Nat) (stack : List Word) (heap : Heap)

@[simp] theorem poised_ip : (m.poised ip stack heap).ip = ip := rfl
@[simp] theorem poised_fp : (m.poised ip stack heap).fp = m.fp := rfl
@[simp] theorem poised_stack : (m.poised ip stack heap).stack = stack.toArray := rfl
@[simp] theorem poised_frames : (m.poised ip stack heap).frames = m.frames := rfl
@[simp] theorem poised_heap : (m.poised ip stack heap).heap = heap := rfl
@[simp] theorem poised_program : (m.poised ip stack heap).program = m.program := rfl
@[simp] theorem poised_exit : (m.poised ip stack heap).exit = m.exit := rfl
@[simp] theorem poised_limits : (m.poised ip stack heap).limits = m.limits := rfl

end Fields

section Actions

variable {α β : Type} {m m' : Machine}

theorem bind_ok {x : Exec α} {f : α → Exec β} {a : α} (h : x m = .ok a m') :
    (x >>= f) m = f a m' := by
  simp [bind, EStateM.bind, h]

theorem bind_error {x : Exec α} {f : α → Exec β} {e : Fault} (h : x m = .error e m') :
    (x >>= f) m = .error e m' := by
  simp [bind, EStateM.bind, h]

variable (m) (ip : Nat) (stack : List Word) (heap : Heap)

theorem push_poised_ok {w : Word} (h : stack.length < m.limits.stack) :
    push w (m.poised ip stack heap) = .ok () (m.poised ip (stack ++ [w]) heap) := by
  simp [push, h, poised]

theorem push_poised_limit {w : Word} (h : ¬ stack.length < m.limits.stack) :
    push w (m.poised ip stack heap) =
      .error (.stackOverflow m.limits.stack) (m.poised ip stack heap) := by
  simp [push, h]

theorem pop_poised (w : Word) :
    pop (m.poised ip (stack ++ [w]) heap) = .ok w (m.poised ip stack heap) := by
  simp [pop, poised]

theorem popInt_poised (w : Word) :
    popInt (m.poised ip (stack ++ [w]) heap) = .ok w.toInt (m.poised ip stack heap) := by
  rw [popInt, bind_ok (pop_poised m ip stack heap w)]
  rfl

theorem popBlock_poised {words : List Word} {count : Word} (h : count.toNat = words.length) :
    popBlock count (m.poised ip (stack ++ words) heap) =
      .ok words.toArray (m.poised ip stack heap) := by
  have hrest : difference (stack.length + words.length) words.length = .ok stack.length := by
    rw [difference_of_le (by omega), Nat.add_sub_cancel]
  simp [popBlock, h, hrest, poised, Array.shrink_eq_take]

end Actions

/-- The machine runs the program and has not ended. -/
structure Hosts (b : Binary) (m : Machine) : Prop where
  program : m.program = b.bytes
  exit : m.exit = none

variable {b : Binary} {m : Machine} {ip : Nat} {stack : List Word} {heap : Heap}
  {code : Code}

theorem Hosts.live (hm : m.Hosts b) (hlisted : ∃ i, b.Lists ip i) :
    (m.poised ip stack heap).Live b :=
  ⟨hm.program, hm.exit, hlisted⟩

section Inst

variable {i : Inst} {j : Instruction}

theorem lists_of_placed (hp : b.Placed ip (.inst i :: code))
    (hj : i.resolve b.labels = .ok j) : b.Lists ip j := by
  obtain ⟨⟨k, hk, hlists⟩, _⟩ := hp
  rw [hj] at hk
  obtain rfl := Except.ok.inj hk
  exact hlists

/-- A placed instruction that succeeds takes one step. -/
theorem reaches_exec {m' : Machine} {ip' : Nat} {stack' : List Word} {heap' : Heap}
    (hb : b.Encoded) (hm : m.Hosts b) (hp : b.Placed ip (.inst i :: code))
    (hj : i.resolve b.labels = .ok j) (hm' : m'.Hosts b) (hnext : ∃ k, b.Lists ip' k)
    (hexec : exec j (m.poised (ip + i.size) stack heap) = .ok () (m'.poised ip' stack' heap')) :
    Reaches b 1 (m.poised ip stack heap) (· = m'.poised ip' stack' heap') := by
  have hlists := lists_of_placed hp hj
  rw [← Inst.resolve_size hj] at hexec
  exact .of_exec hb (hm.live ⟨j, hlists⟩) hlists hexec (hm'.live hnext)

theorem reaches_limit {e : Fault} {n : Nat} {Q : Machine → Prop}
    (hb : b.Encoded) (hm : m.Hosts b) (hp : b.Placed ip (.inst i :: code))
    (hj : i.resolve b.labels = .ok j)
    (hexec : ∃ m', exec j (m.poised (ip + i.size) stack heap) = .error e m') (he : e.isLimit) :
    Reaches b n (m.poised ip stack heap) Q := by
  obtain ⟨m', hexec⟩ := hexec
  have hlists := lists_of_placed hp hj
  rw [← Inst.resolve_size hj] at hexec
  exact .of_limit hb (hm.live ⟨j, hlists⟩) hlists hexec he

theorem reaches_exec_push {stack' : List Word} {w : Word}
    (hb : b.Encoded) (hm : m.Hosts b) (hp : b.Placed ip (.inst i :: code))
    (hj : i.resolve b.labels = .ok j)
    (hexec : exec j (m.poised (ip + i.size) stack heap) =
      push w (m.poised (ip + i.size) stack' heap)) :
    Reaches b 1 (m.poised ip stack heap)
      (· = m.poised (ip + i.size) (stack' ++ [w]) heap) := by
  by_cases hroom : stack'.length < m.limits.stack
  · rw [push_poised_ok _ _ _ _ hroom] at hexec
    exact reaches_exec hb hm hp hj hm (Binary.Placed.lists hp.2) hexec
  · rw [push_poised_limit _ _ _ _ hroom] at hexec
    exact reaches_limit hb hm hp hj ⟨_, hexec⟩ rfl

end Inst

theorem reaches_push {v : Int64} (hb : b.Encoded) (hm : m.Hosts b)
    (hp : b.Placed ip (.inst (.pushi v) :: code)) :
    Reaches b 1 (m.poised ip stack heap)
      (· = m.poised (ip + (Inst.pushi v).size) (stack ++ [.ofInt v]) heap) :=
  reaches_exec_push hb hm hp (Inst.resolve_pushi _ v) rfl

theorem reaches_pop {w : Word} (hb : b.Encoded) (hm : m.Hosts b)
    (hp : b.Placed ip (.inst (.plain .pop) :: code)) :
    Reaches b 1 (m.poised ip (stack ++ [w]) heap)
      (· = m.poised (ip + (Inst.plain .pop).size) stack heap) := by
  apply reaches_exec hb hm hp (Inst.resolve_pop _) hm (Binary.Placed.lists hp.2)
  rw [exec, bind_ok (pop_poised _ _ _ _ _)]
  rfl

theorem reaches_sload {k : Nat} {w : Word} (hb : b.Encoded) (hm : m.Hosts b)
    (hp : b.Placed ip (.inst (.sload k) :: code)) (hk : k < 2 ^ 64)
    (hw : stack[m.fp + k]? = some w) :
    Reaches b 1 (m.poised ip stack heap)
      (· = m.poised (ip + (Inst.sload k).size) (stack ++ [w]) heap) := by
  apply reaches_exec_push hb hm hp (Inst.resolve_sload _ k)
  have hlt : m.fp + k < stack.length := (List.getElem?_eq_some_iff.mp hw).1
  have hget : stack[m.fp + k] = w := (List.getElem?_eq_some_iff.mp hw).2
  simp [exec, loadSlot, slot?, Word.toNat_ofInt_ofNat hk, hlt, hget]

theorem reaches_sstore {k : Nat} {w : Word} (hb : b.Encoded) (hm : m.Hosts b)
    (hp : b.Placed ip (.inst (.sstore k) :: code)) (hk : k < 2 ^ 64)
    (hlt : m.fp + k < stack.length) :
    Reaches b 1 (m.poised ip (stack ++ [w]) heap)
      (· = m.poised (ip + (Inst.sstore k).size) (stack.set (m.fp + k) w) heap) := by
  apply reaches_exec hb hm hp (Inst.resolve_sstore _ k) hm (Binary.Placed.lists hp.2)
  rw [exec, storeSlot, bind_ok (pop_poised _ _ _ _ _)]
  simp [setSlot, slot?, Word.toNat_ofInt_ofNat hk, hlt, poised]

theorem reaches_swap {v w : Word} (hb : b.Encoded) (hm : m.Hosts b)
    (hp : b.Placed ip (.inst (.plain .swap) :: code)) :
    Reaches b 1 (m.poised ip (stack ++ [v, w]) heap)
      (· = m.poised (ip + (Inst.plain .swap).size) (stack ++ [w, v]) heap) := by
  have hsplit : stack ++ [v, w] = stack ++ [v] ++ [w] := by simp
  have hjoin : stack ++ [w, v] = stack ++ [w] ++ [v] := by simp
  rw [hsplit, hjoin]
  by_cases hroom : stack.length < m.limits.stack
  · apply reaches_exec_push hb hm hp (Inst.resolve_swap _)
    rw [exec, bind_ok (pop_poised _ _ _ _ _), bind_ok (pop_poised _ _ _ _ _),
      bind_ok (push_poised_ok _ _ _ _ hroom)]
  · have hexec : exec .swap (m.poised (ip + (Inst.plain .swap).size) (stack ++ [v] ++ [w]) heap) =
        .error (.stackOverflow m.limits.stack)
          (m.poised (ip + (Inst.plain .swap).size) stack heap) := by
      rw [exec, bind_ok (pop_poised _ _ _ _ _), bind_ok (pop_poised _ _ _ _ _),
        bind_error (push_poised_limit _ _ _ _ hroom)]
    exact reaches_limit hb hm hp (Inst.resolve_swap _) ⟨_, hexec⟩ rfl

theorem reaches_intOp {op : Opcode} {j : Instruction} {f : Int64 → Int64 → Int64} {l r : Int64}
    (hb : b.Encoded) (hm : m.Hosts b) (hp : b.Placed ip (.inst (.plain op) :: code))
    (hj : (Inst.plain op).resolve b.labels = .ok j)
    (hexec : exec j = intOp fun l r => pure (f l r)) :
    Reaches b 1 (m.poised ip (stack ++ [.ofInt l, .ofInt r]) heap)
      (· = m.poised (ip + (Inst.plain op).size) (stack ++ [.ofInt (f l r)]) heap) := by
  have hsplit : stack ++ [.ofInt l, .ofInt r] = stack ++ [.ofInt l] ++ [.ofInt r] := by simp
  rw [hsplit]
  apply reaches_exec_push hb hm hp hj
  rw [hexec, intOp, bind_ok (popInt_poised _ _ _ _ _), bind_ok (popInt_poised _ _ _ _ _)]
  simp [pure, EStateM.pure, bind, EStateM.bind]

theorem reaches_idiv {l r : Int64} (hb : b.Encoded) (hm : m.Hosts b)
    (hp : b.Placed ip (.inst (.plain .idiv) :: code)) (hr : r ≠ 0) :
    Reaches b 1 (m.poised ip (stack ++ [.ofInt l, .ofInt r]) heap)
      (· = m.poised (ip + (Inst.plain .idiv).size) (stack ++ [.ofInt (l / r)]) heap) := by
  have hsplit : stack ++ [.ofInt l, .ofInt r] = stack ++ [.ofInt l] ++ [.ofInt r] := by simp
  rw [hsplit]
  apply reaches_exec_push hb hm hp (Inst.resolve_idiv _)
  rw [exec, intOp, bind_ok (popInt_poised _ _ _ _ _), bind_ok (popInt_poised _ _ _ _ _)]
  simp [hr, pure, EStateM.pure, bind, EStateM.bind]

theorem divides_idiv {l : Int64} (hb : b.Encoded) (hm : m.Hosts b)
    (hp : b.Placed ip (.inst (.plain .idiv) :: code)) :
    (m.poised ip (stack ++ [.ofInt l, .ofInt 0]) heap).Divides b := by
  have hsplit : stack ++ [.ofInt l, .ofInt 0] = stack ++ [.ofInt l] ++ [.ofInt 0] := by simp
  have hlists := lists_of_placed hp (Inst.resolve_idiv _)
  have live : (m.poised ip (stack ++ [.ofInt l] ++ [.ofInt 0]) heap).Live b :=
    hm.live ⟨_, hlists⟩
  have hexec : exec .idiv (m.poised (ip + Instruction.idiv.size)
      (stack ++ [.ofInt l] ++ [.ofInt 0]) heap) =
      .error .divisionByZero (m.poised (ip + Instruction.idiv.size) stack heap) := by
    rw [exec, intOp, bind_ok (popInt_poised _ _ _ _ _), bind_ok (popInt_poised _ _ _ _ _)]
    have hthrow : (throw .divisionByZero : Exec Int64)
        (m.poised (ip + Instruction.idiv.size) stack heap) = .error .divisionByZero _ := rfl
    rw [if_pos (Word.toInt_ofInt 0), bind_error hthrow]
  rw [hsplit]
  exact ⟨live, _, step_of_exec_error hb live hlists hexec⟩

private theorem jump_poised {target : Nat} (hsize : target < 2 ^ 64) :
    jump (.ofNat target) (m.poised ip stack heap) = .ok () (m.poised target stack heap) := by
  have hjump : jump (.ofNat target) (m.poised ip stack heap) =
      .ok () (m.poised (Word.ofNat target).toNat stack heap) := rfl
  rw [hjump, Word.toNat_ofNat hsize]

theorem reaches_jump {name : String} {target : Nat} (hb : b.Encoded) (hm : m.Hosts b)
    (hp : b.Placed ip (.inst (.jumpl name) :: code)) (hname : b.labels.get name = .ok target)
    (htarget : ∃ k, b.Lists target k) (hsize : target < 2 ^ 64) :
    Reaches b 1 (m.poised ip stack heap) (· = m.poised target stack heap) := by
  apply reaches_exec hb hm hp (Inst.resolve_jumpl hname) hm htarget
  rw [exec, jump_poised hsize]

theorem reaches_jumpz_taken {name : String} {target : Nat} {w : Word} (hb : b.Encoded)
    (hm : m.Hosts b) (hp : b.Placed ip (.inst (.jumpzl name) :: code))
    (hname : b.labels.get name = .ok target) (htarget : ∃ k, b.Lists target k)
    (hsize : target < 2 ^ 64) (hw : w.toBool = false) :
    Reaches b 1 (m.poised ip (stack ++ [w]) heap) (· = m.poised target stack heap) := by
  apply reaches_exec hb hm hp (Inst.resolve_jumpzl hname) hm htarget
  rw [exec, jumpIf, bind_ok (pop_poised _ _ _ _ _)]
  simp only [hw, beq_self_eq_true, if_true]
  exact jump_poised hsize

theorem reaches_jumpz_passed {name : String} {target : Nat} {w : Word} (hb : b.Encoded)
    (hm : m.Hosts b) (hp : b.Placed ip (.inst (.jumpzl name) :: code))
    (hname : b.labels.get name = .ok target) (hw : w.toBool = true) :
    Reaches b 1 (m.poised ip (stack ++ [w]) heap)
      (· = m.poised (ip + (Inst.jumpzl name).size) stack heap) := by
  apply reaches_exec hb hm hp (Inst.resolve_jumpzl hname) hm (Binary.Placed.lists hp.2)
  rw [exec, jumpIf, bind_ok (pop_poised _ _ _ _ _)]
  simp [hw, pure, EStateM.pure]

theorem step_exit {w : Word} (hb : b.Encoded) (hm : m.Hosts b)
    (hlists : b.Lists ip (.syscall .exit)) :
    ∃ m', step (m.poised ip (stack ++ [w]) heap) = .ok (ip, .syscall .exit) m' ∧
      m'.exit = some w.toInt := by
  have hlive : (m.poised ip (stack ++ [w]) heap).Live b := hm.live ⟨_, hlists⟩
  have hexec : exec (.syscall .exit)
      (m.poised (ip + (Instruction.syscall .exit).size) (stack ++ [w]) heap) =
      .ok () { m.poised (ip + (Instruction.syscall .exit).size) stack heap with
        exit := some w.toInt } := by
    rw [exec, system, bind_ok (popInt_poised _ _ _ _ _)]
    rfl
  exact ⟨_, step_of_exec_ok hb hlive hlists hexec, by simp [settle]⟩

def called (m : Machine) (ret fp : Nat) : Machine :=
  { m with frames := m.frames.push ⟨ret, m.fp⟩, fp }

theorem Hosts.called {ret fp : Nat} (hm : m.Hosts b) : (m.called ret fp).Hosts b :=
  ⟨hm.program, hm.exit⟩

theorem reaches_call {name : String} {target : Nat} {words : List Word} (hb : b.Encoded)
    (hm : m.Hosts b) (hp : b.Placed ip (.inst (.calll name words.length) :: code))
    (hname : b.labels.get name = .ok target) (htarget : ∃ k, b.Lists target k)
    (hsize : target < 2 ^ 64) (hcount : words.length < 2 ^ 64) (hfp : m.fp ≤ stack.length) :
    Reaches b 1 (m.poised ip (stack ++ words) heap)
      (· = (m.called (ip + (Inst.calll name words.length).size) stack.length).poised target
        (stack ++ words) heap) := by
  by_cases hframes : m.limits.frames ≤ m.frames.size
  · have hexec : ∃ m', exec (.call (.ofNat target) (.ofInt (Int64.ofNat words.length)))
        (m.poised (ip + (Inst.calll name words.length).size) (stack ++ words) heap) =
        .error (.stackOverflow m.limits.frames) m' := by
      simp [exec, call, hframes]
    exact reaches_limit hb hm hp (Inst.resolve_calll _ hname) hexec rfl
  · apply reaches_exec hb hm hp (Inst.resolve_calll _ hname) hm.called htarget
    have hroom : difference (stack.length + words.length) (min m.fp (stack.length + words.length)) =
        .ok (stack.length + words.length - m.fp) := by
      rw [difference_of_le (by omega), Nat.min_eq_left (by omega)]
    have henough : ¬ stack.length + words.length - m.fp < words.length := by omega
    have hbase : difference (stack.length + words.length) words.length = .ok stack.length := by
      rw [difference_of_le (by omega), Nat.add_sub_cancel]
    simp [exec, call, hframes, Word.toNat_ofInt_ofNat hcount, Word.toNat_ofNat hsize, hroom,
      henough, hbase, poised, called]

/-- A return takes the words of its frame off the stack and leaves the result. -/
theorem reaches_ret {below words : List Word} {w : Word} {ret : Nat} (hb : b.Encoded)
    (hm : m.Hosts b) (hp : b.Placed ip (.inst (.plain .ret) :: code))
    (hret : ∃ k, b.Lists ret k) :
    Reaches b 1 ((m.called ret below.length).poised ip (below ++ words ++ [w]) heap)
      (· = m.poised ret (below ++ [w]) heap) := by
  have hleave : leave ((m.called ret below.length).poised (ip + (Inst.plain .ret).size)
      (below ++ words) heap) = .ok () (m.poised ret below heap) := by
    simp [leave, called, poised, Array.shrink_eq_take]
  by_cases hroom : below.length < m.limits.stack
  · apply reaches_exec hb hm.called hp (Inst.resolve_ret _) hm hret
    rw [exec, Machine.ret, bind_ok (pop_poised _ _ _ _ _), bind_ok hleave,
      push_poised_ok _ _ _ _ hroom]
  · have hexec : exec .ret ((m.called ret below.length).poised (ip + (Inst.plain .ret).size)
        (below ++ words ++ [w]) heap) =
        .error (.stackOverflow m.limits.stack) (m.poised ret below heap) := by
      rw [exec, Machine.ret, bind_ok (pop_poised _ _ _ _ _), bind_ok hleave,
        push_poised_limit _ _ _ _ hroom]
    exact reaches_limit hb hm.called hp (Inst.resolve_ret _) ⟨_, hexec⟩ rfl

/-- The block is found under the handle in the word. -/
def Holds (heap : Heap) (w : Word) (block : List Word) : Prop :=
  heap.block? w.toInt = some block.toArray

theorem reaches_exec_block {i : Inst} {j : Instruction} {stack' block : List Word}
    (hb : b.Encoded) (hm : m.Hosts b) (hp : b.Placed ip (.inst i :: code))
    (hj : i.resolve b.labels = .ok j)
    (hexec : exec j (m.poised (ip + i.size) stack heap) =
      pushBlock block.toArray (m.poised (ip + i.size) stack' heap)) :
    Reaches b 1 (m.poised ip stack heap) fun m' => ∃ w heap',
      m' = m.poised (ip + i.size) (stack' ++ [w]) heap' ∧ heap.Extends heap' ∧
        Holds heap' w block := by
  rcases heap.alloc_spec block.toArray with ⟨limit, halloc⟩ | ⟨heap', halloc, hext, hsize, hheld⟩
  · have herror : pushBlock block.toArray (m.poised (ip + i.size) stack' heap) =
        .error (.heapExhausted limit) (m.poised (ip + i.size) stack' heap) := by
      simp [pushBlock, onHeap, halloc, bind, EStateM.bind]
    exact reaches_limit hb hm hp hj ⟨_, hexec.trans herror⟩ rfl
  · have hpush : pushBlock block.toArray (m.poised (ip + i.size) stack' heap) =
        push (.ofInt (Int64.ofNat (heap.blocks.size + 1)))
          (m.poised (ip + i.size) stack' heap') := by
      simp [pushBlock, onHeap, halloc, bind, EStateM.bind]
      rfl
    rw [hpush] at hexec
    by_cases hroom : stack'.length < m.limits.stack
    · rw [push_poised_ok _ _ _ _ hroom] at hexec
      have hstep := reaches_exec hb hm hp hj hm (Binary.Placed.lists hp.2) hexec
      by_cases hcrowd : heap'.blocks.size < 2 ^ 63
      · refine hstep.mono fun m' hm' => ⟨_, heap', hm', hext, ?_⟩
        rw [Holds, Word.toInt_ofInt]
        exact hheld hcrowd
      · -- the new block has no handle, so the machine after the step is barred
        have hbar := hstep.bind (k := 0) (R := fun m' => ∃ w heap',
          m' = m.poised (ip + i.size) (stack' ++ [w]) heap' ∧ heap.Extends heap' ∧
            Holds heap' w block) fun m' hm' => .barred (.inr (by
              rw [hm', Crowded, poised_heap]
              omega))
        exact hbar
    · rw [push_poised_limit _ _ _ _ hroom] at hexec
      exact reaches_limit hb hm hp hj ⟨_, hexec⟩ rfl

theorem reaches_pack {words : List Word} (hb : b.Encoded) (hm : m.Hosts b)
    (hp : b.Placed ip (.inst (.pack words.length) :: code)) (hcount : words.length < 2 ^ 64) :
    Reaches b 1 (m.poised ip (stack ++ words) heap) fun m' => ∃ w heap',
      m' = m.poised (ip + (Inst.pack words.length).size) (stack ++ [w]) heap' ∧
        heap.Extends heap' ∧ Holds heap' w words := by
  apply reaches_exec_block hb hm hp (Inst.resolve_pack _ _)
  rw [exec, bind_ok (popBlock_poised _ _ _ _ (Word.toNat_ofInt_ofNat hcount))]

theorem reaches_scat {l r : Word} {left right : List Word} (hb : b.Encoded) (hm : m.Hosts b)
    (hp : b.Placed ip (.inst (.plain .scat) :: code)) (hl : Holds heap l left)
    (hr : Holds heap r right) :
    Reaches b 1 (m.poised ip (stack ++ [l, r]) heap) fun m' => ∃ w heap',
      m' = m.poised (ip + (Inst.plain .scat).size) (stack ++ [w]) heap' ∧
        heap.Extends heap' ∧ Holds heap' w (left ++ right) := by
  have hsplit : stack ++ [l, r] = stack ++ [l] ++ [r] := by simp
  have hget : ∀ (v : Word) (words : List Word), Holds heap v words →
      fromHeap (fun h => h.get v.toInt) (m.poised (ip + (Inst.plain .scat).size) stack heap) =
        .ok words.toArray (m.poised (ip + (Inst.plain .scat).size) stack heap) := by
    intro v words hv
    simp [fromHeap, Heap.get, show heap.block? v.toInt = some words.toArray from hv]
  rw [hsplit]
  apply reaches_exec_block hb hm hp (Inst.resolve_scat _)
  rw [exec, bind_ok (popInt_poised _ _ _ _ _), bind_ok (popInt_poised _ _ _ _ _),
    bind_ok (hget l left hl), bind_ok (hget r right hr), List.append_toArray]

end Machine
end EdeLang
