/-
# `Chip8.Proofs.CallStack` — the call stack is a stack

A call writes a cell and raises `sp`, a return lowers `sp` and leaves the cell
as it is.  So there are dead cells above `sp`, with addresses that were
returned to long ago, and a later call writes over them.  What a program may
rely on is simpler.  It owes a list of returns, the oldest first:

    call addr at p     l         becomes  l ++ [p + 2]   sixteen entries: fault
    ret                l ++ [a]  becomes  l, pc = a      no entry: fault
    anything else      l stays, also if it faults

Two facts about one step carry this to runs of any length.  `Owes` says that
the live cells are the list, and a step takes it along (`Owes.step`).  `Alike`
says that two machines differ in dead cells at most; alike machines take the
same step and are alike afterwards (`Alike.step`).

Between two steps the host may interfere: a faulting instruction is skipped,
keys go down, timers advance.  A `Host` is anything that leaves the live cells
and `sp` as they are and has no way of telling alike machines apart.
-/
import Chip8.Proofs.Bounds

namespace Chip8

/-- The instructions that use the call stack. -/
def Instruction.UsesStack : Instruction Int → Prop
  | call _ | ret => True
  | _ => False

/-! ## All other instructions

What they do with a processor and with the same processor under another call
stack is the same. -/

namespace Cpu

/-- The processor with another call stack. -/
def withCalls (c : Cpu) (stack : Vector UInt16 16) (sp : Nat) : Cpu :=
  { c with stack := stack, sp := sp }

variable (c : Cpu) (stack : Vector UInt16 16) (sp : Nat) (x y : Int) (b : UInt8) (on : Bool)

@[simp] theorem reg?_withCalls : (c.withCalls stack sp).reg? x = c.reg? x := rfl

@[simp] theorem reg_withCalls : (c.withCalls stack sp).reg x = c.reg x := rfl

@[simp] theorem i_withCalls : (c.withCalls stack sp).i = c.i := rfl

@[simp] theorem setReg_withCalls :
    (c.withCalls stack sp).setReg x b = (c.setReg x b).withCalls stack sp := by
  unfold setReg
  split
  · rfl
  · rfl

@[simp] theorem setFlag_withCalls :
    (c.withCalls stack sp).setFlag on = (c.setFlag on).withCalls stack sp :=
  c.setReg_withCalls stack sp 15 _

@[simp] theorem setRegFlag_withCalls :
    (c.withCalls stack sp).setRegFlag x b on = (c.setRegFlag x b on).withCalls stack sp := by
  rw [setRegFlag, setReg_withCalls, setFlag_withCalls, setRegFlag]

@[simp] theorem skipIf_withCalls :
    (c.withCalls stack sp).skipIf on = (c.skipIf on).withCalls stack sp := by
  cases on with
  | false => rfl
  | true => rfl

@[simp] theorem combineFlag_withCalls (op : UInt8 → UInt8 → UInt8) (flag : UInt8 → UInt8 → Bool) :
    Machine.combineFlag (c.withCalls stack sp) x y op flag =
      (Machine.combineFlag c x y op flag).withCalls stack sp := by
  unfold Machine.combineFlag
  rw [reg?_withCalls, reg?_withCalls]
  split
  · exact c.setRegFlag_withCalls stack sp x _ _
  · exact c.setRegFlag_withCalls stack sp x _ _

@[simp] theorem addToIndex_withCalls :
    Machine.addToIndex (c.withCalls stack sp) x = (Machine.addToIndex c x).withCalls stack sp := by
  unfold Machine.addToIndex
  rw [reg?_withCalls]
  cases c.reg? x with
  | none => exact ({ c with i := 0 } : Cpu).setFlag_withCalls stack sp false
  | some b =>
      let sum := Double.nearest (c.i + b.toNat)
      exact ({ c with i := wrapAddress sum } : Cpu).setFlag_withCalls stack sp (4095 < sum)

@[simp] theorem takeKey_withCalls (keypad : Keypad) :
    Machine.takeKey (c.withCalls stack sp) keypad x =
      (Machine.takeKey c keypad x).withCalls stack sp := by
  unfold Machine.takeKey
  cases keypad.firstDown with
  | none => rfl
  | some key => exact ({ c with waiting := false } : Cpu).setReg_withCalls stack sp x _

end Cpu

namespace Machine

/-- The machine with another call stack. -/
def withCalls (m : Machine) (stack : Vector UInt16 16) (sp : Nat) : Machine :=
  { m with cpu := m.cpu.withCalls stack sp }

variable {m m' : Machine} {ins : Instruction Int}

/-- An instruction that does not use the call stack does not see it. -/
theorem execute_withCalls (h : ¬ ins.UsesStack) (m : Machine) (stack : Vector UInt16 16)
    (sp : Nat) :
    (m.withCalls stack sp).execute ins =
      ((m.execute ins).1.withCalls stack sp, (m.execute ins).2) := by
  cases ins with
  | call addr => exact absurd trivial h
  | ret => exact absurd trivial h
  | random x nn =>
      simp only [execute, rollInto, withCalls]
      split
      · simp only [doneCpu, Cpu.setReg_withCalls]
      · rfl
  | draw x y n =>
      simp only [execute, drawRows, withCalls, Cpu.i_withCalls, Cpu.reg?_withCalls]
      split
      · rfl
      · split <;> simp only [done, Cpu.setFlag_withCalls]
  | storeDecimal x =>
      simp only [execute, storeDigits, storeThree, withCalls, Cpu.i_withCalls, Cpu.reg_withCalls]
      split <;> rfl
  | storeRegs x => rfl
  | loadRegs x =>
      simp only [execute, loadFirst, withCalls, Cpu.i_withCalls]
      split
      · rfl
      · split <;> rfl
  | _ => simp [execute, withCalls, doneCpu, done, combine] <;> rfl

/-- Nor does it touch it, whether it completes or not. -/
theorem execute_keeps_calls (h : ¬ ins.UsesStack) (m : Machine) :
    (m.execute ins).1.cpu.stack = m.cpu.stack ∧ (m.execute ins).1.cpu.sp = m.cpu.sp := by
  have hself : m.withCalls m.cpu.stack m.cpu.sp = m := rfl
  have hx := execute_withCalls h m m.cpu.stack m.cpu.sp
  rw [hself] at hx
  rw [hx]
  exact ⟨rfl, rfl⟩

/-! ## Calls and returns -/

/-- A call puts the program counter behind the live addresses. -/
theorem execute_call {addr : Int} (h : m.execute (.call addr) = (m', none)) :
    m'.cpu.returns = m.cpu.returns ++ [UInt16.ofNat (m.cpu.pc % 65536).toNat] ∧
      m.cpu.sp < stackDepth ∧ m'.cpu.sp = m.cpu.sp + 1 := by
  simp only [execute, callAddress] at h
  split at h
  · cases h
  · cases h
    have hlt : m.cpu.sp < stackDepth := Nat.lt_of_not_le ‹_›
    exact ⟨Cpu.returns_push hlt _ _, hlt, rfl⟩

/-- A return takes the last live address off and goes there. -/
theorem execute_ret (hs : m.cpu.sp ≤ stackDepth) (h : m.execute .ret = (m', none)) :
    ∃ a, m.cpu.returns = m'.cpu.returns ++ [a] ∧ m'.cpu.pc = a.toNat ∧
      m.cpu.sp = m'.cpu.sp + 1 := by
  simp only [execute, returnFromCall] at h
  split at h
  · cases h
  · rename_i hsp
    cases h
    obtain ⟨n, hn⟩ := Nat.exists_eq_succ_of_ne_zero hsp
    have hl : n < 16 := by simp only [stackDepth] at hs; omega
    refine ⟨m.cpu.stack[n], ?_, ?_, ?_⟩
    · simp only [Cpu.returns, hn, Nat.succ_sub_one]
      rw [List.take_succ_eq_append_getElem (by rw [Vector.length_toList]; exact hl)]
      rfl
    · simp only [hn, Nat.succ_sub_one, Vector.getElem?_eq_getElem hl, Option.getD_some]
    · simp only [hn, Nat.succ_sub_one]

/-- The program counter behind a fetched instruction fits a stack cell. -/
theorem step_call {addr : Int} (h : m.step.2 = .ok (.call addr)) :
    m.step.1.cpu.returns.map (fun a => (a.toNat : Int)) =
      m.cpu.returns.map (fun a => (a.toNat : Int)) ++ [m.cpu.pc + 2] := by
  obtain ⟨w, m', -, hd, hx, he⟩ := step_of_ok h
  have hpc := fetchDecode_pc hd
  have hmv := movePc_pc hd
  have hret : m'.cpu.returns =
      m.cpu.returns ++ [UInt16.ofNat ((m.movePc 2).cpu.pc % 65536).toNat] := (execute_call hx).1
  rw [he]
  show m'.cpu.returns.map _ = _
  rw [hret, List.map_append, List.map_cons, List.map_nil,
    Cpu.pushed_toNat (by omega) (by omega), hmv]

theorem step_call_sp {addr : Int} (h : m.step.2 = .ok (.call addr)) :
    m.cpu.sp < stackDepth ∧ m.step.1.cpu.sp = m.cpu.sp + 1 := by
  obtain ⟨w, m', -, -, hx, he⟩ := step_of_ok h
  have hsp := (execute_call hx).2
  rw [he]
  exact hsp

theorem step_ret (hs : m.cpu.sp ≤ stackDepth) (h : m.step.2 = .ok .ret) :
    ∃ a, m.cpu.returns = m.step.1.cpu.returns ++ [a] ∧ m.step.1.cpu.pc = a.toNat ∧
      m.cpu.sp = m.step.1.cpu.sp + 1 := by
  obtain ⟨w, m', -, -, hx, he⟩ := step_of_ok h
  have hret := execute_ret (show (m.movePc 2).cpu.sp ≤ stackDepth from hs) hx
  rw [he]
  exact hret

/-- Only a completed call or return touches the call stack. -/
theorem step_keeps_calls (h : ∀ ins, m.step.2 = .ok ins → ¬ ins.UsesStack) :
    m.step.1.cpu.returns = m.cpu.returns ∧ m.step.1.cpu.sp = m.cpu.sp := by
  rcases m.step_cases with ⟨f, -, he⟩ | ⟨w, ins, m', -, -, hx, he⟩ | ⟨-, -, he⟩
  · rw [he]; exact ⟨rfl, rfl⟩
  · obtain ⟨hstack, hsp⟩ := execute_keeps_calls (h ins (by rw [he])) (m.movePc 2)
    rw [hx] at hstack hsp
    rw [he]
    refine ⟨?_, hsp⟩
    show m'.cpu.returns = _
    rw [Cpu.returns, hstack, hsp]
    rfl
  · rw [he]; exact ⟨rfl, rfl⟩

/-- A call that is fetched completes unless all cells are live. -/
theorem step_of_fetch_call {w : Nat} {addr : Int} (h : m.fetchDecode = .ok (w, .call addr)) :
    m.step.2 = if stackDepth ≤ m.cpu.sp then .error (.fault (.stackOverflow m.cpu.pc))
      else .ok (.call addr) := by
  by_cases hs : stackDepth ≤ m.cpu.sp
  · have hstop : m.stop? = some (.stackOverflow m.cpu.pc) :=
      (stop?_of_fetchDecode_ok h).trans (if_pos hs)
    rw [if_pos hs, step_of_stop hstop]
  · obtain ⟨m', hx⟩ : ∃ m', (m.movePc 2).execute (.call addr) = (m', none) := ⟨_, if_neg hs⟩
    rw [if_neg hs, step, h]
    simp only [hx]

/-- A return that is fetched completes unless no cell is live. -/
theorem step_of_fetch_ret {w : Nat} (h : m.fetchDecode = .ok (w, .ret)) :
    m.step.2 = if m.cpu.sp = 0 then .error (.fault (.stackUnderflow m.cpu.pc))
      else .ok .ret := by
  by_cases hs : m.cpu.sp = 0
  · have hstop : m.stop? = some (.stackUnderflow m.cpu.pc) :=
      (stop?_of_fetchDecode_ok h).trans (if_pos hs)
    rw [if_pos hs, step_of_stop hstop]
  · obtain ⟨m', hx⟩ : ∃ m', (m.movePc 2).execute .ret = (m', none) := ⟨_, if_neg hs⟩
    rw [if_neg hs, step, h]
    simp only [hx]

/-! ## What a machine owes -/

/-- The live cells hold these addresses, the oldest first. -/
structure Owes (m : Machine) (l : List Int) : Prop where
  cells : m.cpu.returns.map (fun a => (a.toNat : Int)) = l
  depth : m.cpu.sp = l.length
  le : l.length ≤ stackDepth

/-- The list after the step to come. -/
def owedNext (m : Machine) (l : List Int) : List Int :=
  match m.step.2 with
  | .ok (.call _) => l ++ [m.cpu.pc + 2]
  | .ok .ret => l.dropLast
  | _ => l

/-- The three rows: a call, a return, anything else. -/
theorem owedNext_cases (m : Machine) (l : List Int) :
    (∃ addr, m.step.2 = .ok (.call addr) ∧ m.owedNext l = l ++ [m.cpu.pc + 2]) ∨
    (m.step.2 = .ok .ret ∧ m.owedNext l = l.dropLast) ∨
    ((∀ ins, m.step.2 = .ok ins → ¬ ins.UsesStack) ∧ m.owedNext l = l) := by
  unfold owedNext
  cases hs : m.step.2 with
  | error e => exact .inr (.inr ⟨nofun, rfl⟩)
  | ok ins =>
      cases ins with
      | call addr => exact .inl ⟨addr, rfl, rfl⟩
      | ret => exact .inr (.inl ⟨rfl, rfl⟩)
      | _ => exact .inr (.inr ⟨fun _ h => by cases h; exact id, rfl⟩)

theorem Owes.congr {l : List Int} (h : m.Owes l) (hret : m'.cpu.returns = m.cpu.returns)
    (hsp : m'.cpu.sp = m.cpu.sp) : m'.Owes l :=
  ⟨by rw [hret]; exact h.cells, hsp.trans h.depth, h.le⟩

/-- A return takes the last entry of the list. -/
theorem Owes.of_ret {l : List Int} (h : m.Owes l) (hok : m.step.2 = .ok .ret) :
    l = l.dropLast ++ [m.step.1.cpu.pc] ∧ m.step.1.Owes l.dropLast := by
  obtain ⟨a, hret, hpc, hsp⟩ := step_ret (by rw [h.depth]; exact h.le) hok
  have hl : l = m.step.1.cpu.returns.map (fun a => (a.toNat : Int)) ++ [m.step.1.cpu.pc] := by
    rw [hpc, ← h.cells, hret, List.map_append]
    rfl
  have hdrop : l.dropLast = m.step.1.cpu.returns.map (fun a => (a.toNat : Int)) := by
    rw [hl]; exact List.dropLast_concat
  have hdepth := h.depth
  have hle := h.le
  refine ⟨by rw [hdrop]; exact hl, hdrop.symm, ?_, ?_⟩
  · rw [List.length_dropLast]; omega
  · rw [List.length_dropLast]; omega

/-- Whatever a step does, it takes the list along. -/
theorem Owes.step {l : List Int} (h : m.Owes l) : m.step.1.Owes (m.owedNext l) := by
  rcases m.owedNext_cases l with ⟨addr, hok, hl⟩ | ⟨hok, hl⟩ | ⟨hother, hl⟩
  · obtain ⟨hlt, hsp⟩ := step_call_sp hok
    have hdepth := h.depth
    rw [hl]
    refine ⟨by rw [step_call hok, h.cells], ?_, ?_⟩
    · rw [List.length_append, List.length_singleton]; omega
    · rw [List.length_append, List.length_singleton]; omega
  · rw [hl]
    exact (h.of_ret hok).2
  · obtain ⟨hret, hsp⟩ := step_keeps_calls hother
    rw [hl]
    exact h.congr hret hsp

/-! ## Dead cells -/

/-- The machines differ in dead cells at most. -/
structure Alike (m m' : Machine) : Prop where
  rest : m' = m.withCalls m'.cpu.stack m.cpu.sp
  live : ∀ k < m.cpu.sp, m'.cpu.stack[k]? = m.cpu.stack[k]?

theorem Alike.exists_withCalls (h : m.Alike m') :
    ∃ stack : Vector UInt16 16, m' = m.withCalls stack m.cpu.sp ∧
      ∀ k < m.cpu.sp, stack[k]? = m.cpu.stack[k]? := ⟨_, h.rest, h.live⟩

theorem alike_withCalls {stack : Vector UInt16 16}
    (h : ∀ k < m.cpu.sp, stack[k]? = m.cpu.stack[k]?) : m.Alike (m.withCalls stack m.cpu.sp) :=
  ⟨rfl, h⟩

theorem Alike.movePc (h : m.Alike m') (k : Int) : (m.movePc k).Alike (m'.movePc k) := by
  obtain ⟨stack, rfl, hlive⟩ := h.exists_withCalls
  exact alike_withCalls (m := m.movePc k) hlive

theorem Alike.setPc (h : m.Alike m') (pc : Int) : (m.setPc pc).Alike (m'.setPc pc) := by
  obtain ⟨stack, rfl, hlive⟩ := h.exists_withCalls
  exact alike_withCalls (m := m.setPc pc) hlive

theorem Alike.countCycle (h : m.Alike m') : m.countCycle.Alike m'.countCycle := by
  obtain ⟨stack, rfl, hlive⟩ := h.exists_withCalls
  exact alike_withCalls (m := m.countCycle) hlive

/-- Dead cells make no difference to a call, which writes one of them. -/
theorem Alike.callAddress (h : m.Alike m') (addr : Int) :
    (m.callAddress addr).1.Alike (m'.callAddress addr).1 ∧
      (m'.callAddress addr).2 = (m.callAddress addr).2 := by
  obtain ⟨stack, rfl, hlive⟩ := h.exists_withCalls
  have hsp : (m.withCalls stack m.cpu.sp).cpu.sp = m.cpu.sp := rfl
  by_cases hs : stackDepth ≤ m.cpu.sp
  · rw [Machine.callAddress, if_pos hs, Machine.callAddress, hsp, if_pos hs]
    exact ⟨h, rfl⟩
  · rw [Machine.callAddress, if_neg hs, Machine.callAddress, hsp, if_neg hs]
    refine ⟨⟨rfl, ?_⟩, rfl⟩
    intro k hk
    have hk' : k < m.cpu.sp + 1 := hk
    simp only [doneCpu, withCalls, Cpu.withCalls, Vector.getElem?_setIfInBounds]
    split
    · rfl
    · exact hlive k (by omega)

/-- Dead cells make no difference to a return, which reads a live one. -/
theorem Alike.returnFromCall (h : m.Alike m') :
    m.returnFromCall.1.Alike m'.returnFromCall.1 ∧
      m'.returnFromCall.2 = m.returnFromCall.2 := by
  obtain ⟨stack, rfl, hlive⟩ := h.exists_withCalls
  have hsp : (m.withCalls stack m.cpu.sp).cpu.sp = m.cpu.sp := rfl
  by_cases hs : m.cpu.sp = 0
  · rw [Machine.returnFromCall, if_pos hs, Machine.returnFromCall, hsp, if_pos hs]
    exact ⟨h, rfl⟩
  · have htop : stack[m.cpu.sp - 1]? = m.cpu.stack[m.cpu.sp - 1]? := hlive _ (by omega)
    rw [Machine.returnFromCall, if_neg hs, Machine.returnFromCall, hsp, if_neg hs]
    refine ⟨⟨?_, ?_⟩, rfl⟩
    · simp only [doneCpu, withCalls, Cpu.withCalls, htop]
    · intro k hk
      have hk' : k < m.cpu.sp - 1 := hk
      exact hlive k (by omega)

theorem Alike.execute (h : m.Alike m') (ins : Instruction Int) :
    (m.execute ins).1.Alike (m'.execute ins).1 ∧ (m'.execute ins).2 = (m.execute ins).2 := by
  by_cases hu : ins.UsesStack
  · cases ins with
    | call addr => exact h.callAddress addr
    | ret => exact h.returnFromCall
    | _ => exact hu.elim
  · obtain ⟨hstack, hsp⟩ := execute_keeps_calls hu m
    obtain ⟨stack, rfl, hlive⟩ := h.exists_withCalls
    rw [execute_withCalls hu]
    refine ⟨⟨?_, ?_⟩, rfl⟩
    · rw [hsp]; rfl
    · rw [hstack, hsp]; exact hlive

/-- Alike machines take the same step. -/
theorem Alike.step (h : m.Alike m') : m.step.1.Alike m'.step.1 ∧ m'.step.2 = m.step.2 := by
  refine step_related (R := Alike) h ?_ ?_ ?_ ?_ ?_
  · rw [h.rest]; rfl
  · rw [h.rest]; rfl
  · intro ins
    exact (h.movePc 2).execute ins
  · intro a b pc hab
    exact hab.setPc pc
  · intro a b hab
    exact hab.countCycle

end Machine

/-! ## Runs -/

/-- What happens between one step and the next, at each number of steps. -/
structure Host where
  act : Nat → Machine → Machine
  returns : ∀ n m, (act n m).cpu.returns = m.cpu.returns
  depth : ∀ n m, (act n m).cpu.sp = m.cpu.sp
  alike : ∀ n m m', m.Alike m' → (act n m).Alike (act n m')

namespace Host

/-- Moves past the next instruction after some of the steps. -/
def skipping (skips : Nat → Bool) : Host where
  act n m := if skips n then { m with cpu := m.cpu.skip } else m
  returns n m := by split <;> rfl
  depth n m := by split <;> rfl
  alike n m m' h := by
    obtain ⟨stack, rfl, hlive⟩ := h.exists_withCalls
    split
    · exact Machine.alike_withCalls (m := { m with cpu := m.cpu.skip }) hlive
    · exact h

/-- Does nothing. -/
def idle : Host := skipping fun _ => false

/-- The machine after so many steps. -/
def session (host : Host) (m : Machine) : Nat → Machine
  | 0 => m
  | n + 1 => host.act n (session host m n).step.1

/-- The returns that are owed after so many steps. -/
def owed (host : Host) (m : Machine) : Nat → List Int
  | 0 => []
  | n + 1 => (host.session m n).owedNext (owed host m n)

variable (host : Host) {m m' : Machine}

theorem owes_session (h : m.Owes []) (n : Nat) : (host.session m n).Owes (host.owed m n) := by
  induction n with
  | zero => exact h
  | succ n ih => exact ih.step.congr (host.returns n _) (host.depth n _)

theorem alike_session (h : m.Alike m') (n : Nat) :
    (host.session m n).Alike (host.session m' n) := by
  induction n with
  | zero => exact h
  | succ n ih => exact host.alike n _ _ ih.step.1

/-- The entry at `i` was pushed by a call that has not returned since. -/
def Opened (host : Host) (m : Machine) (n i : Nat) : Prop :=
  ∃ k < n, (∃ addr, (host.session m k).step.2 = .ok (.call addr)) ∧
    (host.owed m n).take (i + 1) = host.owed m k ++ [(host.session m k).cpu.pc + 2] ∧
    ∀ j, k < j → j ≤ n → (host.owed m k).length < (host.owed m j).length

/-- An entry that survives a step was pushed by the same call. -/
theorem Opened.succ {n i : Nat} (h : host.Opened m n i) (hi : i < (host.owed m (n + 1)).length)
    (hlt : i < (host.owed m n).length)
    (htake : (host.owed m (n + 1)).take (i + 1) = (host.owed m n).take (i + 1)) :
    host.Opened m (n + 1) i := by
  obtain ⟨k, hk, hcall, hpush, hdeep⟩ := h
  refine ⟨k, Nat.lt_succ_of_lt hk, hcall, htake.trans hpush, ?_⟩
  intro j hkj hj
  rcases Nat.le_succ_iff.1 hj with hj | rfl
  · exact hdeep j hkj hj
  · have hlen := congrArg List.length hpush
    simp only [List.length_take, List.length_append, List.length_singleton] at hlen
    show (host.owed m k).length < (host.owed m (n + 1)).length
    omega

/-- Of the three rows a call pushes a new last entry, and the entries below it
are those from before. -/
theorem opened (m : Machine) (n : Nat) {i : Nat} (hi : i < (host.owed m n).length) :
    host.Opened m n i := by
  induction n with
  | zero => cases hi
  | succ n ih =>
      have hnext : host.owed m (n + 1) = (host.session m n).owedNext (host.owed m n) := rfl
      rcases (host.session m n).owedNext_cases (host.owed m n) with
        ⟨addr, hok, hl⟩ | ⟨-, hl⟩ | ⟨-, hl⟩
      · rw [hl] at hnext
        by_cases hlt : i < (host.owed m n).length
        · exact (ih hlt).succ host hi hlt (by rw [hnext, List.take_append_of_le_length hlt])
        · have hlen : i = (host.owed m n).length := by
            rw [hnext, List.length_append, List.length_singleton] at hi
            omega
          refine ⟨n, Nat.lt_succ_self n, ⟨addr, hok⟩, ?_, ?_⟩
          · rw [hnext, hlen]
            exact List.take_of_length_le (by rw [List.length_append]; exact Nat.le_refl _)
          · intro j hnj hj
            obtain rfl : j = n + 1 := by omega
            rw [hnext, List.length_append]
            exact Nat.lt_succ_self _
      · rw [hl] at hnext
        have hlt : i < (host.owed m n).length - 1 := by
          rw [← List.length_dropLast, ← hnext]; exact hi
        refine (ih (by omega)).succ host hi (by omega) ?_
        rw [hnext, List.dropLast_eq_take, List.take_take, Nat.min_eq_left hlt]
      · rw [hl] at hnext
        have hlt : i < (host.owed m n).length := by rw [← hnext]; exact hi
        exact (ih hlt).succ host hi hlt (by rw [hnext])

end Host

namespace Machine

/-- In a run from a reset machine the live cells are a list that begins empty.
A call at `p` appends `p + 2` unless there are sixteen entries, a return takes
the last entry off unless there is none, and nothing else changes the list.  A
return goes behind the call that it matches, the last one that has not
returned.  What is in the dead cells makes no difference to any run. -/
theorem call_stack_is_lifo (host : Host) :
    (∀ (m : Machine) (start : Int), m.cpu = Cpu.initial start → ∀ n,
      let s := host.session m n
      let l := host.owed m n
      s.cpu.returns.map (fun a => (a.toNat : Int)) = l ∧ s.cpu.sp = l.length ∧ l.length ≤ 16 ∧
        (∀ w addr, s.fetchDecode = .ok (w, .call addr) →
          s.step.2 = if l.length = 16 then .error (.fault (.stackOverflow s.cpu.pc))
            else .ok (.call addr)) ∧
        (∀ w, s.fetchDecode = .ok (w, .ret) →
          s.step.2 = if l = [] then .error (.fault (.stackUnderflow s.cpu.pc)) else .ok .ret) ∧
        (s.step.2 = .ok .ret → ∃ k < n,
          (∃ addr, (host.session m k).step.2 = .ok (.call addr)) ∧
            s.step.1.cpu.pc = (host.session m k).cpu.pc + 2 ∧
            l = host.owed m k ++ [(host.session m k).cpu.pc + 2] ∧
            ∀ j, k < j → j ≤ n → (host.owed m k).length < (host.owed m j).length)) ∧
    (∀ m m', m.Alike m' → ∀ n,
      (host.session m' n).step.2 = (host.session m n).step.2 ∧
        (host.session m n).Alike (host.session m' n)) := by
  refine ⟨?_, ?_⟩
  · intro m start hm n s l
    have hempty : m.Owes [] := by
      refine ⟨?_, ?_, Nat.zero_le _⟩
      · rw [hm]; rfl
      · rw [hm]; rfl
    have ho : s.Owes l := host.owes_session hempty n
    have hdepth := ho.depth
    have hle := ho.le
    refine ⟨ho.cells, hdepth, hle, ?_, ?_, ?_⟩
    · intro w addr hd
      rw [step_of_fetch_call hd, hdepth]
      have hfull : stackDepth ≤ l.length ↔ l.length = 16 := by
        simp only [stackDepth] at hle ⊢; omega
      simp only [hfull]
    · intro w hd
      rw [step_of_fetch_ret hd, hdepth]
      simp only [List.length_eq_zero_iff]
    · intro hok
      obtain ⟨hlast, -⟩ := ho.of_ret hok
      have hlen : l.length = l.dropLast.length + 1 := by
        have := congrArg List.length hlast
        rwa [List.length_append, List.length_singleton] at this
      obtain ⟨k, hk, hcall, hpush, hdeep⟩ :=
        host.opened m n (show l.dropLast.length < l.length by omega)
      have hl : l = host.owed m k ++ [(host.session m k).cpu.pc + 2] := by
        rw [← hpush, ← hlen]
        exact List.take_length.symm
      refine ⟨k, hk, hcall, ?_, hl, hdeep⟩
      rw [hl, List.dropLast_concat] at hlast
      exact (List.singleton_inj.1 (List.append_cancel_left hlast)).symm
  · intro m m' h n
    have ha := host.alike_session h n
    exact ⟨ha.step.2, ha⟩

/-- The call at 0x200 leads to 0x204, where there is no instruction.  The host
skips that, and the return at 0x206 goes to 0x202.  Sevens in the dead cells
change nothing. -/
theorem call_stack_is_lifo_around_a_fault :
    let m : Machine :=
      { Machine.initial 0 (RandomSource.cycle #[]) with
        memory := ⟨(Vector.replicate 4096 0).set 0x200 0x22 |>.set 0x201 0x04 |>.set 0x207 0xEE⟩ }
    let host := Host.skipping (· == 1)
    let dead : Vector UInt16 16 := Vector.replicate 16 7
    m.cpu = Cpu.initial programStart ∧
      (host.session m 1).stop?.map Fault.kind = some "decode" ∧
      (host.session m 2).step.2 = .ok .ret ∧
      (∃ k < 2, (host.session m 2).step.1.cpu.pc = (host.session m k).cpu.pc + 2) ∧
      m.Alike (m.withCalls dead 0) ∧
      (host.session (m.withCalls dead 0) 2).step.2 = .ok .ret := by
  intro m host dead
  have hm : m.cpu = Cpu.initial programStart := rfl
  have hfault : (host.session m 1).stop?.map Fault.kind = some "decode" := by
    simp only [m, host]
    decide +kernel
  have hret : (host.session m 2).step.2 = .ok .ret := by
    have h : (host.session m 2).step.2.toOption = some .ret := by
      simp only [m, host]
      decide +kernel
    cases hs : (host.session m 2).step.2 with
    | error e => rw [hs] at h; cases h
    | ok ins => rw [hs] at h; cases h; rfl
  have ha : m.Alike (m.withCalls dead 0) := alike_withCalls (m := m) nofun
  obtain ⟨hrun, hdead⟩ := call_stack_is_lifo host
  obtain ⟨-, -, -, -, -, hback⟩ := hrun m programStart hm 2
  obtain ⟨k, hk, -, hpc, -⟩ := hback hret
  exact ⟨hm, hfault, hret, ⟨k, hk, hpc⟩, ha, (hdead m _ ha 2).1.trans hret⟩

end Machine
end Chip8
