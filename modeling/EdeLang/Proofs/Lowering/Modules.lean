import EdeLang.Proofs.Lowering.Statements

/-!
# Modules on the machine

A call enters the code of its function with the arguments as the variables of a new frame, and
the return instruction puts the result in the place of the frame. By induction on the fuel every
call is simulated, and with the calls the statements of a module. The last one leaves the exit
status for the final instruction.
-/

namespace EdeLang

open Lowering

section Functions

variable {b : Binary} {sigs : Signatures} {call : Calls} {count : CallWork} {rounds : Nat}

private theorem values_ofArgs {params : List String} {args : List Value}
    (h : args.length ≤ params.length) : (Env.ofArgs params args).values = args := by
  simp [Env.values, Env.ofArgs, List.map_snd_zip h]

private theorem length_of_hasAll : ∀ {types : List Ty} {vs : List Value},
    Ty.HasAll types vs → vs.length = types.length
  | [], _, rfl => rfl
  | _ :: _, _, ⟨_, _, rfl, _, h⟩ => congrArg (· + 1) (length_of_hasAll h)

/-- The code of a function leads to a return instruction with its value. -/
private theorem apply_sim (hb : b.Runnable) (hsound : CallsSound sigs call)
    (hcall : CallsSim b rounds sigs call count) {f : Func} {args : List Value} {id ip : Nat}
    {body : Lowered} (hf : f.Typed sigs) (hargs : Ty.HasAll (f.signature.1.map Prod.snd) args)
    (hcount : args.length < 2 ^ 63)
    (hbody : stmt (f.params.map Item.name).reverse id f.body = .ok body)
    (hp : b.Placed ip (funcCode f.name body)) :
    Sim b rounds (f.work call count rounds args)
      (Scene.Rests ip [] (.ofArgs (f.params.map Item.name) args)) (f.apply call rounds args)
      fun s v => s.Returning v := by
  have hparams : f.params.map Item.name = f.signature.1.map Prod.fst := by
    simp [Func.signature, Function.comp_def]
  have hslots : (f.params.map Item.name).reverse = Context.names [f.signature.1.reverse] := by
    simp [Context.names, hparams]
  have hlength : (Context.names [f.signature.1.reverse]).length = args.length := by
    simp [Context.names, length_of_hasAll hargs]
  have henv : (Env.ofArgs (f.params.map Item.name) args).Typed [f.signature.1.reverse] :=
    hparams ▸ Env.typed_ofArgs hargs
  obtain ⟨⟨_, hpbody⟩, hend⟩ := Binary.placed_append hp
  obtain ⟨hpush, hpret⟩ := Binary.placed_append (c := [push 0]) hend
  rw [hslots] at hbody
  refine (f.body.sim hb hsound hcall hf.body henv hbody hpbody (by omega)).bind_const ?_
    fun e he => by rw [Func.apply, he]; rfl
  rintro ⟨flow, env⟩ hr
  rw [Func.apply, hr]
  cases flow with
  | returned v =>
    have hdone : Sim b rounds 0 _ (.ok v) fun s v => s.Returning v := .ok fun s m hs => hs
    exact hdone.most_mono (Nat.zero_le 1)
  | normal v =>
    have hmove : Moves b 1 (Scene.Pushed _ [] env) (Scene.Pushed _ [.unit] env) :=
      moves_push hb (fun _ => rfl) hpush
    exact .of_moves fun s m hs => (hmove s m hs.2).mono fun m' h' => h'.returning hpret

end Functions

namespace Scene

variable {b : Binary}

/-- The words below those of a call that is made with the variables in the frame. -/
def stack (s : Scene b) (vars : List Word) : List Word := s.below ++ vars ++ s.temps

def callee (s : Scene b) (ret : Nat) (vars : List Word) (heap : Heap) : Scene b where
  machine := s.machine.called ret (s.stack vars).length
  below := s.stack vars
  temps := []
  heap := heap
  hosts := s.hosts.called
  base := rfl

/-- The machine is in a call that will return to the scene. -/
def Within (ret : Nat) (env : Env) (S : Scene b → Machine → Prop) (s : Scene b) (m : Machine) :
    Prop :=
  ∃ vars heap, s.heap.Extends heap ∧ List.Forall₂ (Value.Rep heap) env.values vars ∧
    S (s.callee ret vars heap) m

end Scene

section Calls

variable {b : Binary} {least most ret : Nat} {env : Env}

private theorem Sim.within {α : Type} {S : Scene b → Machine → Prop} {r : Except Halt α}
    {P : Scene b → α → Machine → Prop} (h : Sim b least most S r P) :
    Sim b least most (Scene.Within ret env S) r fun s a => s.Within ret env fun s' => P s' a := by
  refine h.reindex ?_
  rintro s m ⟨vars, heap, hext, hvars, hs⟩
  exact ⟨s.callee ret vars heap, hs, fun a m' h' => ⟨vars, heap, hext, hvars, h'⟩⟩

private theorem moves_call (hb : b.Runnable) {name : String} {ip target : Nat} {args : List Value}
    {params : List String} (hp : b.Placed ip [.inst (.calll (funcLabel name) args.length)])
    (hname : b.labels.get (funcLabel name) = .ok target) (htarget : ∃ i, b.Lists target i)
    (hcount : args.length < 2 ^ 63) (hparams : args.length ≤ params.length) :
    Moves b 1 (Scene.Pushed ip args env)
      (Scene.Within (ip + Code.extent [.inst (.calll (funcLabel name) args.length)]) env
        (Scene.Rests target [] (.ofArgs params args))) := by
  obtain ⟨i, hi⟩ := htarget
  have hlt := hb.encoded.lt hi
  have hsmall := hb.small
  rintro s _ ⟨vars, words, heap, rfl, hext, hvars, hwords⟩
  rw [hwords.length_eq] at hp hcount ⊢
  have hfp : s.machine.fp ≤ (s.below ++ vars ++ s.temps).length := by
    simp only [s.base, List.length_append]
    omega
  refine (Machine.reaches_call hb.encoded s.hosts hp hname ⟨i, hi⟩ (by omega) (by omega)
    hfp).mono fun m' hm' => ?_
  refine ⟨vars, heap, hext, hvars, rfl, words, [], heap, ?_, .refl heap, ?_, .nil⟩
  · rw [hm']
    simp [Scene.callee, Scene.stack, Code.extent]
  · rwa [values_ofArgs hparams]

private theorem moves_ret (hb : b.Runnable) (hret : ∃ i, b.Lists ret i) {v : Value} :
    Moves b 1 (Scene.Within ret env fun s => s.Returning v) (Scene.Pushed ret [v] env) := by
  rintro s _ ⟨vars, heap, hext, hvars, ip, words, w, heap', hp, rfl, hext', hw⟩
  refine (Machine.reaches_ret hb.encoded s.hosts hp hret).mono fun m' hm' => ?_
  exact ⟨vars, [w], heap', hm', hext.trans hext', Value.forall₂_mono hext' hvars, .cons hw .nil⟩

end Calls

namespace Module

variable {m : Module} {b : Binary}

def FuncsPlaced (m : Module) (b : Binary) : Prop :=
  ∀ f ∈ m.funcs, ∃ id body ip, stmt (f.params.map Item.name).reverse id f.body = .ok body ∧
    b.Placed ip (funcCode f.name body)

/-- Calls in a typed module are simulated. Those that need more fuel take at least as many
steps. -/
theorem callsSim (hm : m.Typed) (hb : b.Runnable) (hfuncs : m.FuncsPlaced b) :
    ∀ fuel, CallsSim b fuel m.signatures (m.call fuel) (m.callWork fuel)
  | 0 => fun _ _ _ _ _ _ _ _ _ _ => .outOfFuel
  | fuel + 1 => fun name params ret args ip env hsig hargs hcount hp => by
    unfold Module.signatures at hsig
    cases hfunc : m.func? name with
    | none => simp [hfunc] at hsig
    | some f =>
      have hsignature : f.signature = (params, ret) := by simpa [hfunc] using hsig
      have hf : f ∈ m.funcs := List.mem_reverse.mp (List.mem_of_find?_eq_some hfunc)
      have hname : f.name = name := by simpa using List.find?_some hfunc
      obtain ⟨id, body, target, hbody, hplaced⟩ := hfuncs f hf
      have hargs' : Ty.HasAll (f.signature.1.map Prod.snd) args := hsignature ▸ hargs
      have hparams : args.length ≤ (f.params.map Item.name).length := by
        rw [length_of_hasAll hargs']
        simp [Func.signature]
      have hlabel : b.labels.get (funcLabel name) = .ok target := hname ▸ hplaced.1
      have happly := apply_sim hb (callsSound hm fuel) (callsSim hm hb hfuncs fuel)
        (hm.funcs f hf) hargs' hcount hbody hplaced
      have henter : Moves b 1 (Scene.Pushed ip args env) _ :=
        moves_call hb hp hlabel (Binary.Placed.lists hplaced) hcount hparams
      have hwork : 1 + f.work (m.call fuel) (m.callWork fuel) fuel args + 1 ≤
          m.callWork (fuel + 1) name args := by
        simp only [Module.callWork, hfunc]
        omega
      rw [Module.call, hfunc]
      have hsim := (happly.within.after_steps henter).then_moves fun v _ => moves_ret hb hp.2
      exact hsim.most_mono hwork

end Module

section Main

variable {b : Binary} {sigs : Signatures} {call : Calls} {count : CallWork} {rounds : Nat}

private theorem rep_exitCode {heap : Heap} {t : Ty} {v : Value} {w : Word} (hv : t.Has v)
    (hscalar : t.isScalar = true) (h : v.Rep heap w) : (Value.int v.exitCode).Rep heap w := by
  cases t with
  | prim p =>
    cases p with
    | int =>
      obtain ⟨n, rfl⟩ := hv
      exact h
    | bool =>
      obtain ⟨x, rfl⟩ := hv
      exact h
    | char =>
      obtain ⟨c, rfl⟩ := hv
      exact h
    | _ => simp [Ty.isScalar] at hscalar
  | _ => simp [Ty.isScalar] at hscalar

private theorem exitCode_eq_zero {t : Ty} {v : Value} (hv : t.Has v)
    (hscalar : t.isScalar = false) : v.exitCode = 0 := by
  cases t with
  | prim p =>
    cases p with
    | unit =>
      obtain rfl : v = .unit := hv
      rfl
    | string =>
      obtain ⟨s, rfl⟩ := hv
      rfl
    | _ => simp [Ty.isScalar] at hscalar
  | array elem =>
    obtain ⟨vs, rfl, _⟩ := hv
    rfl
  | tuple elems =>
    obtain ⟨vs, rfl, _⟩ := hv
    rfl
  | object name fields =>
    obtain ⟨vs, rfl, _⟩ := hv
    rfl
  | func params ret =>
    obtain rfl : v = .unit := hv
    rfl

private theorem moves_status (hb : b.Runnable) {ip : Nat} {env : Env} {v : Value}
    (hp : b.Placed ip [push 0]) (hv : v.exitCode = 0) :
    Moves b 1 (Scene.Rests ip [] env)
      (Scene.Rests (ip + Code.extent [push 0]) [.int v.exitCode] env) := by
  have hmove : Moves b 1 (Scene.Pushed ip [] env) (Scene.Pushed _ [.int 0] env) :=
    moves_push hb (fun _ => rfl) hp
  rw [hv]
  exact hmove.rests

private theorem zero_sim (hb : b.Runnable) (hsound : CallsSound sigs call)
    (hcall : CallsSim b rounds sigs call count) {s : Stmt} {vars : List (String × Ty)}
    {ctx : Context} {env : Env} {last : Value} {lastId ip : Nat} {l : Lowered}
    (hs : s.Typed sigs none (vars :: ctx)) (henv : env.Typed (vars :: ctx))
    (hl : stmt (Context.names (vars :: ctx)) lastId s = .ok l)
    (hp : b.Placed ip (l.code ++ [push 0]))
    (hslots : (Context.names (vars :: ctx)).length < 2 ^ 63 + ip)
    (hzero : ∀ v env', s.exec call rounds env = .ok (.normal v, env') →
      (s.result (.normal v)).exitCode = 0) :
    Sim b rounds (Stmt.workModule call count rounds [s] env) (Scene.Rests ip [] env)
      (Stmt.execModule call rounds last [s] env) fun s a =>
        s.Rests (ip + (l.code ++ [push 0]).extent) [.int a.1.exitCode] a.2 := by
  obtain ⟨hpl, hpush⟩ := Binary.placed_append hp
  rw [Code.extent_append, ← Nat.add_assoc, Stmt.workModule]
  refine (s.sim hb hsound hcall hs henv hl hpl hslots).bind ?_
    fun e he => by rw [Stmt.execModule, he]
  rintro ⟨flow, env₁⟩ hr
  have hends := (s.exec_sound rounds hsound hs henv).of_ok hr
  cases flow with
  | returned v =>
    obtain ⟨t, ht, _⟩ := hends
    simp at ht
  | normal v =>
    rw [Stmt.execModule, hr]
    exact .of_moves (moves_status hb hpush (hzero v env₁ hr))

private theorem status_sim (hb : b.Runnable) (hsound : CallsSound sigs call)
    (hcall : CallsSim b rounds sigs call count) {s : Stmt} {vars : List (String × Ty)}
    {ctx : Context} {env : Env} {last : Value} {lastId ip : Nat} {code : Code}
    (hs : s.Typed sigs none (vars :: ctx)) (henv : env.Typed (vars :: ctx))
    (hcode : status (Context.names (vars :: ctx)) lastId s = .ok code) (hp : b.Placed ip code)
    (hslots : (Context.names (vars :: ctx)).length < 2 ^ 63 + ip) :
    Sim b rounds (Stmt.workModule call count rounds [s] env) (Scene.Rests ip [] env)
      (Stmt.execModule call rounds last [s] env) fun s a =>
        s.Rests (ip + code.extent) [.int a.1.exitCode] a.2 := by
  cases s with
  | expr info e =>
    obtain ⟨t, he⟩ := hs
    simp only [status, typeOf_eq he.type_eq, bind_eq_ok, Except.ok.injEq] at hcode
    obtain ⟨_, rfl, hcode⟩ := hcode
    cases hscalar : t.isScalar with
    | true =>
      rw [hscalar, if_pos rfl] at hcode
      have hwork : e.work call count env ≤
          Stmt.workModule call count rounds [.expr info e] env := by
        rw [Stmt.workModule, Stmt.work]
        omega
      refine ((e.sim hb hsound hcall he henv hcode hp hslots).rests.bind_const (k := 0) ?_
        fun h hh => by rw [Stmt.execModule, Stmt.exec, hh]; rfl).most_mono hwork
      rintro ⟨v, env₁⟩ hr
      obtain ⟨hv, _⟩ := (e.eval_sound hsound he henv).of_ok hr
      rw [Stmt.execModule, Stmt.exec, hr]
      exact .ok fun s m hs => ⟨hs.1, hs.2.imp fun _ _ => rep_exitCode hv hscalar⟩
    | false =>
      rw [hscalar, if_neg (by simp)] at hcode
      simp only [bind_eq_ok, pure_eq_ok] at hcode
      obtain ⟨l, hl, rfl⟩ := hcode
      refine zero_sim hb hsound hcall ⟨t, he⟩ henv hl hp hslots fun v env' hr => ?_
      obtain ⟨⟨w, env₁⟩, hr', heq⟩ := map_eq_ok (by rwa [Stmt.exec] at hr)
      obtain ⟨hv, _⟩ := (e.eval_sound hsound he henv).of_ok hr'
      obtain ⟨rfl, _⟩ : v = w ∧ env' = env₁ := by simpa using heq
      exact exitCode_eq_zero hv hscalar
  | _ =>
    simp only [status, bind_eq_ok, pure_eq_ok] at hcode
    obtain ⟨l, hl, rfl⟩ := hcode
    exact zero_sim hb hsound hcall hs henv hl hp hslots fun _ _ _ => rfl

private theorem statements_sim (hb : b.Runnable) (hsound : CallsSound sigs call)
    (hcall : CallsSim b rounds sigs call count) : ∀ (ss : List Stmt) {vars : List (String × Ty)}
      {ctx : Context} {env : Env} {last : Value} {lastId ip : Nat} {code : Code},
        (ss = [] → last = .unit) → Stmt.TypedAll sigs none (vars :: ctx) ss →
          env.Typed (vars :: ctx) → statements (Context.names (vars :: ctx)) lastId ss = .ok code →
            b.Placed ip code → (Context.names (vars :: ctx)).length < 2 ^ 63 + ip →
              Sim b rounds (Stmt.workModule call count rounds ss env) (Scene.Rests ip [] env)
                (Stmt.execModule call rounds last ss env) fun s a =>
                  s.Rests (ip + code.extent) [.int a.1.exitCode] a.2
  | [], vars, ctx, env, last, lastId, ip, code, hlast, _, _, hcode, hp, _ => by
    obtain rfl := Except.ok.inj hcode
    obtain rfl := hlast rfl
    exact .of_moves (moves_status hb hp rfl)
  | [s], vars, ctx, env, last, lastId, ip, code, _, ⟨hs, _⟩, henv, hcode, hp, hslots =>
    status_sim hb hsound hcall hs henv hcode hp hslots
  | s :: s' :: ss, vars, ctx, env, last, lastId, ip, code, _, ⟨hs, hss⟩, henv, hcode, hp,
      hslots => by
    simp only [statements, bind_eq_ok, pure_eq_ok] at hcode
    obtain ⟨first, hfirst, rest, hrest, rfl⟩ := hcode
    obtain ⟨hpfirst, hprest⟩ := Binary.placed_append hp
    rw [Code.extent_append, ← Nat.add_assoc, Stmt.workModule]
    refine (s.sim hb hsound hcall hs henv hfirst hpfirst hslots).bind ?_
      fun e he => by rw [Stmt.execModule, he]
    rintro ⟨flow, env₁⟩ hr
    have hends := (s.exec_sound rounds hsound hs henv).of_ok hr
    cases flow with
    | returned v =>
      obtain ⟨t, ht, _⟩ := hends
      simp at ht
    | normal v =>
      obtain ⟨vars₁, hvars₁⟩ := s.declare_cons vars ctx
      have henv₁ : env₁.Typed (vars₁ :: ctx) := hvars₁ ▸ hends
      have hnames := slots_stmt hs hfirst
      have hle := length_slots_le hfirst
      rw [hvars₁] at hnames hss
      rw [hnames] at hrest hle
      rw [Stmt.execModule, hr]
      exact statements_sim hb hsound hcall (s' :: ss) (by simp) hss henv₁ hrest hprest (by omega)

end Main

/-- The next instruction is the last one of the program, and ends it with the status. -/
structure Machine.Exits (b : Binary) (code : Int64) (m : Machine) : Prop where
  live : m.Live b
  last : m.ip + (Instruction.syscall .exit).size = b.bytes.size
  step : ∃ m', Machine.step m = .ok (m.ip, .syscall .exit) m' ∧ m'.exit = some code

private theorem exits_of_rests {b : Binary} (hb : b.Runnable) {ip : Nat} {env : Env} {code : Int64}
    {s : Scene b} {m : Machine} (hlists : b.Lists ip (.syscall .exit))
    (hlast : ip + (Instruction.syscall .exit).size = b.bytes.size)
    (h : s.Rests ip [.int code] env m) : m.Exits b code := by
  obtain ⟨_, vars, words, heap, rfl, _, _, hwords⟩ := h
  cases hwords with
  | cons hw hrest =>
    cases hrest
    obtain rfl := hw
    have hstep : ∃ m', Machine.step (s.machine.poised ip (s.below ++ vars ++ s.temps ++
        [.ofInt code]) heap) = .ok (ip, .syscall .exit) m' ∧ m'.exit = some _ :=
      Machine.step_exit hb.encoded s.hosts hlists
    rw [Word.toInt_ofInt] at hstep
    exact ⟨s.hosts.live ⟨_, hlists⟩, hlast, hstep⟩

private theorem lists_last {b : Binary} {is : List Instruction} {i : Instruction}
    (h : b.bytes = Instruction.encodeAll (is ++ [i])) :
    b.Lists (Instruction.sizeAll is) i ∧ Instruction.sizeAll is + i.size = b.bytes.size := by
  refine ⟨⟨_, h ▸ Instruction.decodeAll_encodeAll (is ++ [i]), ?_⟩, ?_⟩
  · rw [Instruction.listing_append]
    exact List.mem_append_right _ (by simp [Instruction.listing])
  · rw [h, Instruction.encodeAll_size, Instruction.sizeAll_append]
    simp

private theorem load_eq {program : Array UInt8} (limits : Limits) (h : 0 < program.size) :
    Machine.load program limits =
      (Machine.load program limits).poised 0 [] (.empty limits.heap) ∧
      (Machine.load program limits).program = program ∧
      (Machine.load program limits).exit = none ∧ (Machine.load program limits).fp = 0 := by
  have hne : ¬ 0 = program.size := by omega
  simp [Machine.load, Machine.settle, Machine.poised, hne]

namespace Module

/-- The program of a typed module goes the way of its evaluation, under all limits, and has done so
with one more step within the work of the evaluation. -/
theorem sim {m : Module} (hm : m.Typed) : ∃ b, m.build = .ok b ∧ b.Encoded ∧
    (b.bytes.size < 2 ^ 63 → ∀ fuel, ∃ n, n < m.work fuel ∧
      (m.eval fuel = .error .outOfFuel → fuel ≤ n) ∧
      ∀ limits, (Machine.load b.bytes limits).Reaches b n
        (Outcome b (m.eval fuel) fun v m' => m'.Exits b v.exitCode)) := by
  obtain ⟨functions, lastId, main, b, is, hfuncs, hmain, hbuild, hbytes, hsize, hplaced⟩ :=
    assemble_ok hm
  refine ⟨b, hbuild, ⟨_, hbytes⟩, fun hsmall fuel => ?_⟩
  have hb : b.Runnable := ⟨⟨_, hbytes⟩, hsmall⟩
  obtain ⟨hplaced', hpmain⟩ := Binary.placed_append hplaced
  obtain ⟨hplaced'', hlabel, _⟩ := Binary.placed_append hplaced'
  obtain ⟨⟨_, hjump⟩, hpfuncs⟩ := Binary.placed_append hplaced''
  have hall : m.FuncsPlaced b := by
    intro f hf
    obtain ⟨id, body, front, back, hbody, rfl⟩ := exists_of_mem_funcs hfuncs hf hm.funcs
    obtain ⟨hfront, _⟩ := Binary.placed_append hpfuncs
    exact ⟨id, body, _, hbody, (Binary.placed_append hfront).2⟩
  obtain ⟨hlists, hlast⟩ := lists_last hbytes
  rw [hsize] at hlists hlast
  have hentry : 0 + Code.extent ([.label startLabel, .inst (.jumpl mainLabel)] ++ functions ++
      [.label mainLabel]) =
      0 + Code.extent ([.label startLabel, .inst (.jumpl mainLabel)] ++ functions) := by
    rw [Code.extent_append]
    rfl
  have hend : 0 + Code.extent ([.label startLabel, .inst (.jumpl mainLabel)] ++ functions) +
      main.extent = (bodyCode functions main).extent := by
    rw [← hentry, Nat.zero_add, ← Code.extent_append]
    rfl
  rw [hentry] at hpmain
  have hstatements : Sim b fuel _ _ (Stmt.execModule (m.call fuel) fuel .unit m.stmts [[]]) _ :=
    statements_sim hb (callsSound hm fuel) (callsSim hm hb hall fuel) m.stmts (fun _ => rfl)
      hm.stmts (.cons .nil .nil) hmain hpmain (Nat.lt_add_right _ (by decide))
  rw [hend] at hstatements
  have hjumped := hstatements.after (moves_jump hb hjump hlabel (Binary.Placed.lists hpmain)).rests
  have hwhole : Sim b fuel _ (Scene.Rests 0 [] [[]]) (m.eval fuel)
      fun s v m' => m'.Exits b v.exitCode :=
    hjumped.map fun s a m' hs => exits_of_rests hb hlists hlast hs
  obtain ⟨n, hmost, hfuel, hreach⟩ := hwhole
  have hlt : n < m.work fuel := by
    rw [Module.work, Env.enter]
    omega
  refine ⟨n, hlt, hfuel, fun limits => ?_⟩
  have hpos : 0 < b.bytes.size := by
    rw [← hlast]
    exact Nat.add_pos_right _ (Instruction.size_pos _)
  obtain ⟨hload, hprogram, hexit, hfp⟩ := load_eq limits hpos
  let start : Scene b := ⟨.load b.bytes limits, [], [], .empty limits.heap, ⟨hprogram, hexit⟩, hfp⟩
  exact hreach start _ ⟨rfl, [], [], _, hload, .refl _, .nil, .nil⟩

end Module
end EdeLang
