import EdeLang.Machine.Step
import EdeLang.Proofs.Assembly.Placement

/-!
# Runs of a program

A live machine is about to execute a listed instruction of its program. From it a number of steps
either leads to a wanted state, or the machine is barred on the way: a limit stops it, or its heap
has more blocks than there are handles.
-/

namespace EdeLang

def Fault.isLimit : Fault → Bool
  | .stackOverflow _ | .heapExhausted _ => true
  | _ => false

/-- The program is the encoding of some instructions. -/
def Binary.Encoded (b : Binary) : Prop := ∃ is, b.bytes = Instruction.encodeAll is

theorem Binary.Encoded.decode {b : Binary} (hb : b.Encoded) {offset : Nat} {i : Instruction}
    (h : b.Lists offset i) : Instruction.decode b.bytes offset = .ok i := by
  obtain ⟨is, his⟩ := hb
  obtain ⟨l, hl, hmem⟩ := h
  rw [his, Instruction.decodeAll_encodeAll] at hl
  obtain rfl := Except.ok.inj hl
  rw [his]
  exact Instruction.decode_of_mem_listing hmem

theorem Binary.Encoded.lt {b : Binary} (hb : b.Encoded) {offset : Nat} {i : Instruction}
    (h : b.Lists offset i) : offset < b.bytes.size := by
  obtain ⟨is, his⟩ := hb
  exact h.lt his

namespace Machine

/-- The machine runs the program and has not ended, and its next instruction is listed. -/
structure Live (b : Binary) (m : Machine) : Prop where
  program : m.program = b.bytes
  exit : m.exit = none
  listed : ∃ i, b.Lists m.ip i

/-- Signed words can address all bytes of the program and all blocks of the heap, as they can
wherever both fit into a memory. -/
structure Addressable (m : Machine) : Prop where
  program : m.program.size < 2 ^ 63
  blocks : m.heap.blocks.size < 2 ^ 63

/-- The heap has as many blocks as there are handles. -/
def Crowded (m : Machine) : Prop := 2 ^ 63 ≤ m.heap.blocks.size

/-- A limit stops the next instruction. -/
def Limited (b : Binary) (m : Machine) : Prop :=
  m.Live b ∧ ∃ e m', step m = .error e m' ∧ e.isLimit

/-- The next instruction divides by zero. -/
def Divides (b : Binary) (m : Machine) : Prop :=
  m.Live b ∧ ∃ m', step m = .error .divisionByZero m'

/-- So many steps lead from one machine to another, each from a live one. -/
inductive Steps (b : Binary) : Nat → Machine → Machine → Prop
  | refl (m : Machine) : Steps b 0 m m
  | head {n : Nat} {m m' m'' : Machine} {x : Nat × Instruction} (live : m.Live b)
      (first : step m = .ok x m') (rest : Steps b n m' m'') : Steps b (n + 1) m m''

variable {b : Binary}

theorem Steps.trans {n k : Nat} {m m' m'' : Machine} (h : Steps b n m m')
    (h' : Steps b k m' m'') : Steps b (n + k) m m'' := by
  induction h with
  | refl m => simpa using h'
  | head live first _ ih =>
    rw [Nat.add_right_comm]
    exact .head live first (ih h')

theorem Steps.split {n k : Nat} {m m'' : Machine} (h : Steps b (n + k) m m'') :
    ∃ m', Steps b n m m' ∧ Steps b k m' m'' := by
  induction n generalizing m with
  | zero => exact ⟨m, .refl m, by simpa using h⟩
  | succ n ih =>
    rw [Nat.add_right_comm] at h
    cases h with
    | head live first rest =>
      obtain ⟨m', hn, hk⟩ := ih rest
      exact ⟨m', .head live first hn, hk⟩

/-- A run goes through the steps. -/
theorem Steps.run_eq {n : Nat} {m m' : Machine} (h : Steps b n m m') (k : Nat) :
    run (n + k) m = run k m' := by
  induction h with
  | refl m => simp
  | head live first _ ih =>
    rw [Nat.add_right_comm, run]
    simp [isTerminated, live.exit, first, ih]

def Barred (b : Binary) (m : Machine) : Prop := m.Limited b ∨ m.Crowded

/-- So many steps lead to a machine with the property, unless one on the way is barred. -/
def Reaches (b : Binary) (n : Nat) (m : Machine) (Q : Machine → Prop) : Prop :=
  (∃ m', Steps b n m m' ∧ Q m') ∨ ∃ k m', k ≤ n ∧ Steps b k m m' ∧ m'.Barred b

namespace Reaches

variable {n k : Nat} {m : Machine} {Q R : Machine → Prop}

theorem here (h : Q m) : Reaches b 0 m Q := .inl ⟨m, .refl m, h⟩

theorem barred (h : m.Barred b) : Reaches b n m Q := .inr ⟨0, m, Nat.zero_le n, .refl m, h⟩

theorem bind (h : Reaches b n m Q) (next : ∀ m', Q m' → Reaches b k m' R) :
    Reaches b (n + k) m R := by
  rcases h with ⟨m', hsteps, hQ⟩ | ⟨j, m', hj, hsteps, hbar⟩
  · rcases next m' hQ with ⟨m'', hsteps', hR⟩ | ⟨i, m'', hi, hsteps', hbar⟩
    · exact .inl ⟨m'', hsteps.trans hsteps', hR⟩
    · exact .inr ⟨n + i, m'', by omega, hsteps.trans hsteps', hbar⟩
  · exact .inr ⟨j, m', by omega, hsteps, hbar⟩

theorem mono (h : Reaches b n m Q) (himp : ∀ m', Q m' → R m') : Reaches b n m R := by
  have hbind := h.bind fun m' hQ => here (himp m' hQ)
  simpa using hbind

end Reaches

section Step

variable {m m' : Machine} {i : Instruction}

theorem Live.settle_eq (hb : b.Encoded) (live : m.Live b) : m.settle = m := by
  obtain ⟨i, hi⟩ := live.listed
  have hlt := hb.lt hi
  have hne : m.ip ≠ m.program.size := by
    rw [live.program]
    omega
  simp [settle, hne]

theorem step_of_exec_ok (hb : b.Encoded) (live : m.Live b) (hi : b.Lists m.ip i)
    (hexec : exec i { m with ip := m.ip + i.size } = .ok () m') :
    step m = .ok (m.ip, i) m'.settle := by
  have hdecode := hb.decode hi
  rw [← live.program] at hdecode
  simp [step, hdecode, hexec]

theorem step_of_exec (hb : b.Encoded) (live : m.Live b) (hi : b.Lists m.ip i)
    (hexec : exec i { m with ip := m.ip + i.size } = .ok () m') (live' : m'.Live b) :
    step m = .ok (m.ip, i) m' := by
  rw [step_of_exec_ok hb live hi hexec, live'.settle_eq hb]

theorem step_of_exec_error {e : Fault} (hb : b.Encoded) (live : m.Live b)
    (hi : b.Lists m.ip i) (hexec : exec i { m with ip := m.ip + i.size } = .error e m') :
    step m = .error e m' := by
  have hdecode := hb.decode hi
  rw [← live.program] at hdecode
  simp [step, hdecode, hexec]

theorem Reaches.of_exec (hb : b.Encoded) (live : m.Live b) (hi : b.Lists m.ip i)
    (hexec : exec i { m with ip := m.ip + i.size } = .ok () m') (live' : m'.Live b) :
    Reaches b 1 m (· = m') :=
  .inl ⟨m', .head live (step_of_exec hb live hi hexec live') (.refl m'), rfl⟩

theorem Reaches.of_limit {e : Fault} {n : Nat} {Q : Machine → Prop} (hb : b.Encoded)
    (live : m.Live b) (hi : b.Lists m.ip i)
    (hexec : exec i { m with ip := m.ip + i.size } = .error e m') (he : e.isLimit) :
    Reaches b n m Q :=
  .barred (.inl ⟨live, e, m', step_of_exec_error hb live hi hexec, he⟩)

end Step

end Machine
end EdeLang
