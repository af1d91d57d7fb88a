import EdeLang.Proofs.Evaluation.Safety
import EdeLang.Proofs.Lowering.Modules
import EdeLang.Proofs.Machine.Limits

/-!
# Correctness of built programs

A text that is accepted has a program. Its runs end as the evaluation of the checked module does, if
the limits are large enough and the budget is the work of the evaluation or more. Whatever the
limits and the budget are, they end in no other way unless a limit or the budget stops them.

Words address the bytes of a program and the blocks of a heap, so there must be fewer than `2 ^ 63`
of both. There are, in a program with fewer bytes, if the work of the evaluation is less, and after
a run of fewer instructions (`addressable_run`).
-/

namespace EdeLang

namespace Machine

variable {b : Binary} {n t : Nat} {m m' : Machine}

theorem Steps.live (h : Steps b (n + 1) m m') : m.Live b := by
  cases h with
  | head live _ _ => exact live

theorem Steps.run_running (h : Steps b t m m') (live : m'.Live b) : run t m = .ok .running m' := by
  have hrun := h.run_eq 0
  simpa [run, status, live.exit] using hrun

theorem Steps.exists_running (h : Steps b n m m') (hlt : t < n) :
    ∃ s, run t m = .ok .running s ∧ s.Live b := by
  obtain ⟨k, rfl⟩ : ∃ k, n = t + (k + 1) := ⟨n - t - 1, by omega⟩
  obtain ⟨s, hsteps, hrest⟩ := h.split
  exact ⟨s, hsteps.run_running hrest.live, hrest.live⟩

theorem Steps.run_error {e : Fault} {m'' : Machine} (h : Steps b n m m') (live : m'.Live b)
    (hstep : step m' = .error e m'') (hlt : n < t) : run t m = .error e m'' := by
  obtain ⟨k, rfl⟩ : ∃ k, t = n + (k + 1) := ⟨t - n - 1, by omega⟩
  rw [h.run_eq, run]
  simp [isTerminated, live.exit, hstep]

theorem Steps.run_exited {code : Int64} (h : Steps b n m m') (hexits : m'.Exits b code)
    (hlt : n < t) : ∃ m'', step m' = .ok (m'.ip, .syscall .exit) m'' ∧
      run t m = .ok (.exited code) m'' := by
  obtain ⟨m'', hstep, hcode⟩ := hexits.step
  obtain ⟨k, rfl⟩ : ∃ k, t = n + (k + 1) := ⟨t - n - 1, by omega⟩
  refine ⟨m'', hstep, ?_⟩
  rw [h.run_eq, run]
  simp [isTerminated, hexits.live.exit, hstep, run_of_exit hcode]

/-- No machine on the way of a run has more blocks than the last one. -/
theorem Steps.not_crowded (h : Steps b n m m') (hle : n ≤ t)
    (haddr : (reached (run t m)).Addressable) : ¬ m'.Crowded := by
  obtain ⟨k, rfl⟩ : ∃ k, t = n + k := ⟨t - n, by omega⟩
  have hsize := ((tame_run k).keeps m').le_size
  rw [← h.run_eq] at hsize
  have hlast := haddr.blocks
  unfold Crowded
  omega

theorem Reaches.exists_steps {Q : Machine → Prop} (h : m.Reaches b n Q)
    (henough : ¬ Refused (run (n + 1) m)) (haddr : (reached (run (n + 1) m)).Addressable) :
    ∃ m', Steps b n m m' ∧ Q m' := by
  rcases h with hreach | ⟨k, s, hk, hsteps, ⟨hlive, e, s', hstep, hlimit⟩ | hcrowded⟩
  · exact hreach
  · have hrun : run (n + 1) m = .error e s' := hsteps.run_error hlive hstep (by omega)
    rw [hrun] at henough
    exact absurd hlimit henough
  · exact absurd hcrowded (hsteps.not_crowded (by omega) haddr)

end Machine

open Machine

private theorem eq_of_isLimit {e : Fault} (h : e.isLimit) :
    (∃ n, e = .stackOverflow n) ∨ ∃ n, e = .heapExhausted n := by
  cases e <;> simp_all [Fault.isLimit]

/-- How a run ends whose budget is smaller than the fuel of the evaluation. -/
inductive Module.Ends (m : Module) (b : Binary) (start : Machine) (fuel t : Nat) : Prop
  | running (s : Machine) (run_eq : run t start = .ok .running s) (live : s.Live b)
  | exited (v : Value) (k : Nat) (s s' : Machine) (eval_eq : m.eval fuel = .ok v) (lt : k < t)
      (before : run k start = .ok .running s) (exits : s.Exits b v.exitCode)
      (step_eq : step s = .ok (s.ip, .syscall .exit) s')
      (run_eq : run t start = .ok (.exited v.exitCode) s')
  | divides (pos : Pos) (s : Machine) (eval_eq : m.eval fuel = .error (.divisionByZero pos))
      (run_eq : run t start = .error .divisionByZero s)
  | refused (e : Fault) (s : Machine) (limit : e.isLimit) (run_eq : run t start = .error e s)

theorem Module.ends_of_reaches {m : Module} (hm : m.Typed) {b : Binary} {start : Machine}
    {fuel n t : Nat} (hfuel : m.eval fuel = .error .outOfFuel → fuel ≤ n) (hlt : t < fuel)
    (h : start.Reaches b n (Outcome b (m.eval fuel) fun v m' => m'.Exits b v.exitCode))
    (haddr : (reached (run t start)).Addressable) : m.Ends b start fuel t := by
  have hbefore : ∀ {k s}, Steps b k start s → t < k → m.Ends b start fuel t := by
    intro k s hsteps hk
    obtain ⟨s, hrun, hlive⟩ := hsteps.exists_running hk
    exact .running s hrun hlive
  have hthere : ∀ {s}, Steps b t start s → s.Live b → m.Ends b start fuel t :=
    fun hsteps hlive => .running _ (hsteps.run_running hlive) hlive
  -- the budget is spent before the end of the way, exactly there, or after it
  rcases h with ⟨s, hsteps, hout⟩ | ⟨k, s, -, hsteps, hbarred⟩
  · cases heval : m.eval fuel with
    | ok v =>
      rw [heval] at hout
      rcases Nat.lt_trichotomy t n with htn | rfl | hnt
      · exact hbefore hsteps htn
      · exact hthere hsteps hout.live
      · obtain ⟨s', hstep, hrun⟩ := hsteps.run_exited hout hnt
        exact .exited v n s s' heval hnt (hsteps.run_running hout.live) hout hstep hrun
    | error halt =>
      cases halt with
      | divisionByZero pos =>
        rw [heval] at hout
        obtain ⟨hlive, s', hstep⟩ := hout
        rcases Nat.lt_trichotomy t n with htn | rfl | hnt
        · exact hbefore hsteps htn
        · exact hthere hsteps hlive
        · exact .divides pos s' heval (hsteps.run_error hlive hstep hnt)
      | fault f => exact absurd heval ((m.eval_sound hm fuel).ne_fault f)
      -- an evaluation without end keeps the machine busy for more steps than it may take
      | outOfFuel => exact hbefore hsteps (hlt.trans_le (hfuel heval))
  · rcases hbarred with ⟨hlive, e, s', hstep, hlimit⟩ | hcrowded
    · rcases Nat.lt_trichotomy t k with htk | rfl | hkt
      · exact hbefore hsteps htk
      · exact hthere hsteps hlive
      · exact .refused e s' hlimit (hsteps.run_error hlive hstep hkt)
    · rcases Nat.lt_or_ge t k with htk | hkt
      · exact hbefore hsteps htk
      · exact absurd hcrowded (hsteps.not_crowded hkt haddr)

namespace Module.Ends

variable {m : Module} {b : Binary} {start s : Machine} {fuel t : Nat}

theorem live_of_running (h : m.Ends b start fuel t) (hrun : run t start = .ok .running s) :
    s.Live b := by
  cases h with
  | running s' hrun' hlive =>
    rw [hrun] at hrun'
    injection hrun' with _ hs
    exact hs ▸ hlive
  | exited _ _ _ _ _ _ _ _ _ hrun' => simp [hrun] at hrun'
  | divides _ _ _ hrun' => simp [hrun] at hrun'
  | refused _ _ _ hrun' => simp [hrun] at hrun'

theorem exists_of_exited {code : Int64} (h : m.Ends b start fuel t)
    (hrun : run t start = .ok (.exited code) s) :
    (∃ v, m.eval fuel = .ok v ∧ v.exitCode = code) ∧
      ∃ k s', k < t ∧ run k start = .ok .running s' ∧ s'.Exits b code ∧
        step s' = .ok (s'.ip, .syscall .exit) s := by
  cases h with
  | running _ hrun' _ => simp [hrun] at hrun'
  | exited v k s' s'' heval hk hbefore hexits hstep hrun' =>
    rw [hrun] at hrun'
    injection hrun' with hstatus hs
    injection hstatus with hcode
    subst hcode hs
    exact ⟨⟨v, heval, rfl⟩, k, s', hk, hbefore, hexits, hstep⟩
  | divides _ _ _ hrun' => simp [hrun] at hrun'
  | refused _ _ _ hrun' => simp [hrun] at hrun'

theorem of_error {e : Fault} (h : m.Ends b start fuel t) (hrun : run t start = .error e s) :
    e.isLimit ∨ e = .divisionByZero ∧ ∃ pos, m.eval fuel = .error (.divisionByZero pos) := by
  cases h with
  | running _ hrun' _ => simp [hrun] at hrun'
  | exited _ _ _ _ _ _ _ _ _ hrun' => simp [hrun] at hrun'
  | divides pos _ heval hrun' =>
    rw [hrun] at hrun'
    injection hrun' with he
    exact .inr ⟨he, pos, heval⟩
  | refused _ _ hlimit hrun' =>
    rw [hrun] at hrun'
    injection hrun' with he
    exact .inl (he ▸ hlimit)

end Module.Ends

variable {name source : String} {m : Module}

private theorem build_of_checked {b : Binary} (hchecked : Module.checked name source = .ok m)
    (hbuild : m.build = .ok b) : build name source = .ok b := by
  simp [build, hchecked, hbuild, bind, Except.bind]

private theorem size_lt_of_addressable {b : Binary} {l : Limits} {t : Nat}
    (h : (reached (run t (load b.bytes l))).Addressable) : b.bytes.size < 2 ^ 63 := by
  have hsize := h.program
  rwa [program_reached] at hsize

/-- The program of an accepted text, all of whose runs end in one of the four ways. -/
theorem exists_build_ends (hchecked : Module.checked name source = .ok m) :
    ∃ b, build name source = .ok b ∧ ∀ l fuel t, t < fuel →
      (reached (run t (load b.bytes l))).Addressable → m.Ends b (load b.bytes l) fuel t := by
  have hm := Module.typed_of_checked hchecked
  obtain ⟨b, hbuild, -, hsim⟩ := Module.sim hm
  refine ⟨b, build_of_checked hchecked hbuild, fun l fuel t hlt haddr => ?_⟩
  obtain ⟨n, -, hfuel, hreach⟩ := hsim (size_lt_of_addressable haddr) fuel
  exact Module.ends_of_reaches hm hfuel hlt (hreach l) haddr

/-- The program of an accepted text goes the whole way of an evaluation if it has enough room, and
is at its end with one more step within the work of the evaluation. -/
theorem exists_build_steps (hchecked : Module.checked name source = .ok m) :
    ∃ b, build name source = .ok b ∧ (b.bytes.size < 2 ^ 63 → ∀ fuel, m.work fuel < 2 ^ 63 →
      ∃ n, n < m.work fuel ∧ ∃ l₀ : Limits, ∀ l, l₀ ≤ l → ∃ s, Steps b n (load b.bytes l) s ∧
        Outcome b (m.eval fuel) (fun v s => s.Exits b v.exitCode) s) := by
  obtain ⟨b, hbuild, -, hsim⟩ := Module.sim (Module.typed_of_checked hchecked)
  refine ⟨b, build_of_checked hchecked hbuild, fun hsize fuel hshort => ?_⟩
  obtain ⟨n, hn, -, hreach⟩ := hsim hsize fuel
  obtain ⟨l₀, henough⟩ := exists_enough b.bytes (n + 1)
  refine ⟨n, hn, l₀, fun l hl => ?_⟩
  have haddr := addressable_run (t := n + 1) l hsize (by omega)
  exact (hreach l).exists_steps (henough l hl) haddr

private theorem exists_of_any {ε α : Type} {x : Except ε α} {p : α → Bool}
    (h : x.toOption.any p = true) : ∃ a, x = .ok a ∧ p a = true := by
  cases x with
  | ok a => exact ⟨a, rfl, h⟩
  | error e => simp [Except.toOption] at h

private theorem ends_of_build {b : Binary} {t : Nat} (hchecked : Module.checked name source = .ok m)
    (hbuild : build name source = .ok b) (l : Limits) (hsize : b.bytes.size < 2 ^ 63)
    (ht : t < 2 ^ 63) : m.Ends b (load b.bytes l) (t + 1) t := by
  obtain ⟨b', hbuild', hends⟩ := exists_build_ends hchecked
  obtain rfl : b = b' := Except.ok.inj (hbuild.symm.trans hbuild')
  exact hends l (t + 1) t (Nat.lt_succ_self t) (addressable_run l hsize ht)

private theorem work_of_checked {fuel n : Nat} (hchecked : Module.checked name source = .ok m)
    (h : ((Module.checked name source).toOption.any fun m => m.work fuel = n) = true) :
    m.work fuel = n := by
  rw [hchecked] at h
  exact of_decide_eq_true h

theorem exists_run_pickText : ∃ m b s, Module.checked "pick" pickText = .ok m ∧
    build "pick" pickText = .ok b ∧ b.bytes.size < 2 ^ 63 ∧
    run 100 (load b.bytes .standard) = .ok (.exited 6) s := by
  have hrun : ((build "pick" pickText).toOption.any fun b => b.bytes.size < 2 ^ 63 ∧
      verdict (run 100 (load b.bytes .standard)) = .ok (.exited 6)) = true := by
    decide +kernel
  obtain ⟨m, hm⟩ := exists_checked_pickText
  obtain ⟨b, hb, hrun⟩ := exists_of_any hrun
  obtain ⟨hsize, hverdict⟩ := of_decide_eq_true hrun
  cases hs : run 100 (load b.bytes .standard) with
  | ok status s =>
    rw [hs] at hverdict
    obtain rfl := Except.ok.inj hverdict
    exact ⟨m, b, s, hm, hb, hsize, hs⟩
  | error e s => simp [hs, verdict] at hverdict

def halfText : String := "def func half(n: int): int \x7breturn 1 / n;\x7d half(0);"

theorem exists_run_halfText : ∃ m b s, Module.checked "half" halfText = .ok m ∧
    build "half" halfText = .ok b ∧ b.bytes.size < 2 ^ 63 ∧
    run 100 (load b.bytes .standard) = .error .divisionByZero s := by
  have hm : ((Module.checked "half" halfText).toOption.any fun _ => true) = true := by
    decide +kernel
  have hrun : ((build "half" halfText).toOption.any fun b => b.bytes.size < 2 ^ 63 ∧
      verdict (run 100 (load b.bytes .standard)) = .error .divisionByZero) = true := by
    decide +kernel
  obtain ⟨m, hm, -⟩ := exists_of_any hm
  obtain ⟨b, hb, hrun⟩ := exists_of_any hrun
  obtain ⟨hsize, hverdict⟩ := of_decide_eq_true hrun
  cases hs : run 100 (load b.bytes .standard) with
  | ok status s => simp [hs, verdict] at hverdict
  | error e s =>
    rw [hs] at hverdict
    obtain rfl := Except.error.inj hverdict
    exact ⟨m, b, s, hm, hb, hsize, hs⟩

/-- A program ends as the evaluation of its module does, under all limits that are large enough and
with every budget that is the work of the evaluation or more: with the exit status of the value, or
with a division by zero. -/
theorem run_build_of_eval (hchecked : Module.checked name source = .ok m) :
    ∃ b, build name source = .ok b ∧ (b.bytes.size < 2 ^ 63 → ∀ fuel, m.work fuel < 2 ^ 63 →
      (∀ v, m.eval fuel = .ok v → ∃ l₀ : Limits, ∀ l t, l₀ ≤ l → m.work fuel ≤ t →
        ∃ s, run t (load b.bytes l) = .ok (.exited v.exitCode) s) ∧
      (∀ pos, m.eval fuel = .error (.divisionByZero pos) →
        ∃ l₀ : Limits, ∀ l t, l₀ ≤ l → m.work fuel ≤ t →
          ∃ s, run t (load b.bytes l) = .error .divisionByZero s)) := by
  obtain ⟨b, hbuild, hsteps⟩ := exists_build_steps hchecked
  refine ⟨b, hbuild, fun hsize fuel hshort => ?_⟩
  obtain ⟨n, hn, l₀, hlarge⟩ := hsteps hsize fuel hshort
  constructor
  · intro v heval
    refine ⟨l₀, fun l t hl ht => ?_⟩
    obtain ⟨s, hsteps, hout⟩ := hlarge l hl
    rw [heval] at hout
    obtain ⟨s', -, hrun⟩ := hsteps.run_exited hout (hn.trans_le ht)
    exact ⟨s', hrun⟩
  · intro pos heval
    refine ⟨l₀, fun l t hl ht => ?_⟩
    obtain ⟨s, hsteps, hout⟩ := hlarge l hl
    rw [heval] at hout
    obtain ⟨hlive, s', hstep⟩ := hout
    exact ⟨s', hsteps.run_error hlive hstep (hn.trans_le ht)⟩

theorem run_build_of_eval_texts :
    (∃ m v b l₀, Module.checked "pick" pickText = .ok m ∧ m.eval 101 = .ok v ∧ v.exitCode = 6 ∧
      m.work 101 = 13 ∧ build "pick" pickText = .ok b ∧ b.bytes.size < 2 ^ 63 ∧
      ∀ l t, l₀ ≤ l → 13 ≤ t → ∃ s, run t (load b.bytes l) = .ok (.exited 6) s) ∧
    (∃ m pos b l₀, Module.checked "half" halfText = .ok m ∧
      m.eval 101 = .error (.divisionByZero pos) ∧ m.work 101 = 11 ∧
      build "half" halfText = .ok b ∧ b.bytes.size < 2 ^ 63 ∧
      ∀ l t, l₀ ≤ l → 11 ≤ t → ∃ s, run t (load b.bytes l) = .error .divisionByZero s) := by
  refine ⟨?_, ?_⟩
  · obtain ⟨m, b, s, hm, hb, hsize, hrun⟩ := exists_run_pickText
    have hend := ends_of_build hm hb (t := 100) .standard hsize (by decide)
    obtain ⟨⟨v, hv, hcode⟩, -⟩ := hend.exists_of_exited hrun
    have hwork : m.work 101 = 13 := work_of_checked hm (by decide +kernel)
    obtain ⟨b', hb', hruns⟩ := run_build_of_eval hm
    obtain rfl : b = b' := Except.ok.inj (hb.symm.trans hb')
    obtain ⟨l₀, hlarge⟩ := (hruns hsize 101 (by omega)).1 v hv
    rw [hcode, hwork] at hlarge
    exact ⟨m, v, b, l₀, hm, hv, hcode, hwork, hb, hsize, hlarge⟩
  · obtain ⟨m, b, s, hm, hb, hsize, hrun⟩ := exists_run_halfText
    have hend := ends_of_build hm hb (t := 100) .standard hsize (by decide)
    obtain hlimit | ⟨-, pos, hv⟩ := hend.of_error hrun
    · simp [Fault.isLimit] at hlimit
    have hwork : m.work 101 = 11 := work_of_checked hm (by decide +kernel)
    obtain ⟨b', hb', hruns⟩ := run_build_of_eval hm
    obtain rfl : b = b' := Except.ok.inj (hb.symm.trans hb')
    obtain ⟨l₀, hlarge⟩ := (hruns hsize 101 (by omega)).2 pos hv
    rw [hwork] at hlarge
    exact ⟨m, pos, b, l₀, hm, hv, hwork, hb, hsize, hlarge⟩

/-- A run of a built program, under any limits and with any budget, ends in no fault but a division
by zero, or because of a limit. As long as it goes on, the instruction pointer is at a listed
instruction, and it exits by the last instruction of the program. -/
theorem run_build_safe (hchecked : Module.checked name source = .ok m) :
    ∃ b, build name source = .ok b ∧ ∀ l t, (reached (run t (load b.bytes l))).Addressable →
      (∀ e s, run t (load b.bytes l) = .error e s →
        e = .divisionByZero ∨ (∃ n, e = .stackOverflow n) ∨ ∃ n, e = .heapExhausted n) ∧
      (∀ s, run t (load b.bytes l) = .ok .running s →
        ∃ listing i, Instruction.decodeAll b.bytes = .ok listing ∧ (s.ip, i) ∈ listing) ∧
      (∀ code s', run t (load b.bytes l) = .ok (.exited code) s' →
        ∃ k s, k < t ∧ run k (load b.bytes l) = .ok .running s ∧
          s.ip + (Instruction.syscall .exit).size = b.bytes.size ∧
          step s = .ok (s.ip, .syscall .exit) s') := by
  obtain ⟨b, hbuild, hends⟩ := exists_build_ends hchecked
  refine ⟨b, hbuild, fun l t haddr => ?_⟩
  have hend := hends l (t + 1) t (Nat.lt_succ_self t) haddr
  refine ⟨fun e s hrun => ?_, fun s hrun => ?_, fun code s' hrun => ?_⟩
  · rcases hend.of_error hrun with hlimit | ⟨he, -⟩
    · exact .inr (eq_of_isLimit hlimit)
    · exact .inl he
  · obtain ⟨i, listing, hlisting, hmem⟩ := (hend.live_of_running hrun).listed
    exact ⟨listing, i, hlisting, hmem⟩
  · obtain ⟨-, k, s, hk, hbefore, hexits, hstep⟩ := hend.exists_of_exited hrun
    exact ⟨k, s, hk, hbefore, hexits.last, hstep⟩

theorem run_build_safe_pickText : ∃ m b s', Module.checked "pick" pickText = .ok m ∧
    build "pick" pickText = .ok b ∧
    run 100 (load b.bytes .standard) = .ok (.exited 6) s' ∧
    ∃ k s, k < 100 ∧ run k (load b.bytes .standard) = .ok .running s ∧
      s.ip + (Instruction.syscall .exit).size = b.bytes.size ∧
      step s = .ok (s.ip, .syscall .exit) s' := by
  obtain ⟨m, b, s', hm, hb, hsize, hrun⟩ := exists_run_pickText
  obtain ⟨b', hb', hsafe⟩ := run_build_safe hm
  obtain rfl : b = b' := Except.ok.inj (hb.symm.trans hb')
  have haddr := addressable_run (t := 100) .standard hsize (by decide)
  exact ⟨m, b, s', hm, hb, hrun, (hsafe .standard 100 haddr).2.2 6 s' hrun⟩

/-- A run that exits or divides by zero has an evaluation that ends in the same way, with any fuel
beyond its budget. -/
theorem eval_of_run_build (hchecked : Module.checked name source = .ok m) :
    ∃ b, build name source = .ok b ∧ ∀ l t, (reached (run t (load b.bytes l))).Addressable →
      (∀ code s, run t (load b.bytes l) = .ok (.exited code) s →
        ∀ fuel, t < fuel → ∃ v, m.eval fuel = .ok v ∧ v.exitCode = code) ∧
      (∀ s, run t (load b.bytes l) = .error .divisionByZero s →
        ∀ fuel, t < fuel → ∃ pos, m.eval fuel = .error (.divisionByZero pos)) := by
  obtain ⟨b, hbuild, hends⟩ := exists_build_ends hchecked
  refine ⟨b, hbuild, fun l t haddr => ⟨fun code s hrun fuel hlt => ?_, fun s hrun fuel hlt => ?_⟩⟩
  · exact ((hends l fuel t hlt haddr).exists_of_exited hrun).1
  · rcases (hends l fuel t hlt haddr).of_error hrun with hlimit | ⟨-, heval⟩
    · simp [Fault.isLimit] at hlimit
    · exact heval

theorem eval_of_run_build_texts :
    (∃ m b s v, Module.checked "pick" pickText = .ok m ∧ build "pick" pickText = .ok b ∧
      run 100 (load b.bytes .standard) = .ok (.exited 6) s ∧
      m.eval 101 = .ok v ∧ v.exitCode = 6) ∧
    (∃ m b s pos, Module.checked "half" halfText = .ok m ∧ build "half" halfText = .ok b ∧
      run 100 (load b.bytes .standard) = .error .divisionByZero s ∧
      m.eval 101 = .error (.divisionByZero pos)) := by
  refine ⟨?_, ?_⟩
  · obtain ⟨m, b, s, hm, hb, hsize, hrun⟩ := exists_run_pickText
    obtain ⟨b', hb', hends⟩ := eval_of_run_build hm
    obtain rfl : b = b' := Except.ok.inj (hb.symm.trans hb')
    have haddr := addressable_run (t := 100) .standard hsize (by decide)
    obtain ⟨v, hv⟩ := (hends .standard 100 haddr).1 6 s hrun 101 (by decide)
    exact ⟨m, b, s, v, hm, hb, hrun, hv⟩
  · obtain ⟨m, b, s, hm, hb, hsize, hrun⟩ := exists_run_halfText
    obtain ⟨b', hb', hends⟩ := eval_of_run_build hm
    obtain rfl : b = b' := Except.ok.inj (hb.symm.trans hb')
    have haddr := addressable_run (t := 100) .standard hsize (by decide)
    obtain ⟨pos, hpos⟩ := (hends .standard 100 haddr).2 s hrun 101 (by decide)
    exact ⟨m, b, s, pos, hm, hb, hrun, hpos⟩

end EdeLang
