import Lucario.Proofs.Relocation

namespace Lucario.Proofs

/-- An instruction that does not depend on where its program is nor on the words that interrupts
store. -/
structure Careful (floor : Int) (inst : Instruction) (m : Machine) : Prop where
  code : translate m.cpu (m.cpu.psw.pc - 1) ∈ Home floor m.cpu
  operand : OperandIn (Home floor m.cpu) inst m.cpu
  top : inst.opCode = .svc → Accessible m.cpu m.cpu.sp
  unprivileged : ¬ Privileged inst.opCode
  noTransfer : inst.opCode ≠ .sdmaon
  relative : ¬ Absolute inst.opCode

def CarefulStep (floor : Int) (m : Machine) (os : List Effect) (k : Machine) : Prop :=
  AloneStep m os k ∧ ∀ inst n, fetched m = some (inst, n) → Careful floor inst n

structure Twins (floor d : Int) (m m' : Machine) : Prop where
  place : Relocatable d m.cpu
  agree : Agree (Home floor (relocateCpu d m.cpu)) (relocate d m) m'

def Typed (a b : Effect) : Prop := ∃ v w, v ≠ w ∧ a = .input v ∧ b = .input w

section

variable {floor d : Int} {u u' : Unspecified} {inst : Instruction} {m m' n n' k k' : Machine}
  {os os' : List Effect}

/-- What a call is answered is determined but for what is typed. -/
theorem answered_determined (h : Answered m os k) (h' : Answered m os' k') :
    os = os' ∧ k = k' ∨ Simulation.Parted Typed os os' := by
  cases h with
  | output hac hw =>
    cases h' with
    | output hac' hw' =>
      rw [hw] at hw'
      obtain rfl := Except.ok.inj hw'
      exact Or.inl ⟨rfl, rfl⟩
    | input v hac' => omega
    | sleep hac' | awake hac' => omega
    | unknown hac' => simp [hac] at hac'
  | input v hac =>
    cases h' with
    | input w hac' =>
      by_cases hv : v = w
      · subst hv
        exact Or.inl ⟨rfl, rfl⟩
      · exact Or.inr ⟨[], _, _, [], [], ⟨v, w, hv, rfl, rfl⟩, rfl, rfl⟩
    | output hac' | sleep hac' | awake hac' => omega
    | unknown hac' => simp [hac] at hac'
  | sleep hac hw hn =>
    cases h' with
    | sleep hac' hw' hn' =>
      rw [hw] at hw'
      obtain rfl := Except.ok.inj hw'
      exact Or.inl ⟨rfl, rfl⟩
    | awake hac' hw' hn' =>
      rw [hw] at hw'
      obtain rfl := Except.ok.inj hw'
      omega
    | output hac' | input v hac' => omega
    | unknown hac' => simp [hac] at hac'
  | awake hac hw hn =>
    cases h' with
    | sleep hac' hw' hn' =>
      rw [hw] at hw'
      obtain rfl := Except.ok.inj hw'
      omega
    | awake hac' hw' hn' => exact Or.inl ⟨rfl, rfl⟩
    | output hac' | input v hac' => omega
    | unknown hac' => simp [hac] at hac'
  | unknown hac =>
    cases h' with
    | unknown hac' => exact Or.inl ⟨rfl, rfl⟩
    | output hac' | input v hac' | sleep hac' | awake hac' => simp [hac'] at hac

/-- A program alone does what it does, whatever it is that is typed. -/
theorem alone_determined (h : AloneStep m os k) (h' : AloneStep m os' k') :
    os = os' ∧ k = k' ∨ Simulation.Parted Typed os os' := by
  cases h with
  | instruction u hf hop hh =>
    cases h' with
    | instruction u' hf' hop' hh' =>
      rw [hf] at hf'
      obtain ⟨rfl, rfl⟩ := Prod.mk.inj (Option.some.inj hf')
      rw [handler_unspecified u' (by rw [hh]), hh] at hh'
      exact Or.inl ⟨rfl, (Prod.mk.inj hh').2⟩
    | call hf' hop' ha' =>
      rw [hf] at hf'
      obtain ⟨rfl, rfl⟩ := Prod.mk.inj (Option.some.inj hf')
      exact absurd hop' hop
  | call hf hop ha =>
    cases h' with
    | instruction u' hf' hop' hh' =>
      rw [hf] at hf'
      obtain ⟨rfl, rfl⟩ := Prod.mk.inj (Option.some.inj hf')
      exact absurd hop hop'
    | call hf' hop' ha' =>
      rw [hf] at hf'
      obtain ⟨rfl, rfl⟩ := Prod.mk.inj (Option.some.inj hf')
      exact answered_determined ha ha'

theorem home_relocated {c : Cpu} {x : Int} :
    x + d ∈ Home floor (relocateCpu d c) ↔ x ∈ Home floor c := by
  simp only [Home, relocateCpu, Set.mem_ofPred_eq]
  omega

theorem Twins.symm (h : Twins floor d m m') : Twins floor (-d) m' m := by
  obtain ⟨⟨huser, hhere, hthere⟩, ⟨hac, hpsw, hb, hl, hx, hsp⟩, hram⟩ := h
  simp only [relocate, relocateCpu] at hac hpsw hb hl hx hsp
  have hback : m.cpu.rb = m'.cpu.rb + -d ∧ m.cpu.rl = m'.cpu.rl + -d := by omega
  refine ⟨⟨by rw [hpsw, huser], by omega, by omega⟩, ⟨⟨hac.symm, hpsw.symm, ?_, ?_, hx.symm,
    hsp.symm⟩, ?_⟩⟩
  · exact hback.1
  · exact hback.2
  · intro x hx
    have same : relocateCpu (-d) m'.cpu = { m'.cpu with rb := m.cpu.rb, rl := m.cpu.rl } := by
      rw [relocateCpu, hback.1, hback.2]
    have hin : x ∈ Home floor m.cpu := by
      rw [same] at hx
      simp only [Home, Set.mem_ofPred_eq, hsp] at hx ⊢
      exact hx
    have word := hram (x + d) (home_relocated.mpr hin)
    simp only [relocate, Int.add_sub_cancel] at word
    simp only [relocate, Int.sub_neg]
    exact word.symm

/-- A careful instruction can be fetched here as it can be there. -/
theorem Twins.fetched (h : Twins floor d m m') (hf : Proofs.fetched m = some (inst, n))
    (hc : Careful floor inst n) :
    ∃ n', Proofs.fetched m' = some (inst, n') ∧ Twins floor d n n' := by
  have moved : Proofs.fetched (relocate d m) = some (inst, relocate d n) := by
    rw [relocated_fetched h.place, hf]
    rfl
  have hcode : pcWord (relocate d m).cpu ∈ Home floor (relocate d m).cpu := by
    have there := home_relocated (d := d).mpr (fetched_from_home hf hc.code)
    rwa [pcWord, ← relocated_translate h.place] at there
  obtain ⟨w, -, -, hn, -⟩ := fetched_machine hf
  obtain ⟨n', hf', hagree⟩ := home_fetched h.agree moved hcode
  refine ⟨n', hf', ⟨?_, hagree⟩⟩
  rw [hn]
  exact h.place.of_view ⟨rfl, rfl, rfl⟩

/-- A careful instruction does the same to both. -/
theorem Twins.handler (h : Twins floor d n n') (hc : Careful floor inst n)
    (hs : (Lucario.handler u inst n).1 = .success) :
    (Lucario.handler u inst n').1 = .success ∧
      Twins floor d (Lucario.handler u inst n).2 (Lucario.handler u inst n').2 := by
  have moved : Lucario.handler u inst (relocate d n) = ((Lucario.handler u inst n).1,
      relocate d (Lucario.handler u inst n).2) :=
    relocated_handler h.place hc.unprivileged hc.noTransfer hc.relative
  have hin : OperandIn (Home floor (relocate d n).cpu) inst (relocate d n).cpu := by
    intro hfetches hmode hacc
    have here := hc.operand hfetches hmode ((relocated_accessible h.place _).mp hacc)
    have there := home_relocated (d := d).mpr here
    rwa [← relocated_translate h.place] at there
  obtain ⟨hstatus, hagree⟩ := home_handler (u := u) (m := relocate d n) h.agree h.place.user
    hc.unprivileged hc.noTransfer hin
  rw [moved] at hstatus hagree
  exact ⟨hstatus.trans hs, h.place.of_view (handler_view u inst n hc.unprivileged).1, hagree hs⟩

/-- A call that is answered here can be answered there. -/
theorem Twins.answered (h : Twins floor d n n') (ha : Accessible n.cpu n.cpu.sp)
    (hn : Answered n os k) : ∃ k', Answered n' os k' ∧ Twins floor d k k' := by
  have hac : n'.cpu.ac = n.cpu.ac := h.agree.cpu.ac
  have argument : readMemory n'.cpu.sp n' = readMemory n.cpu.sp n := by
    have there : Accessible (relocate d n).cpu (relocate d n).cpu.sp :=
      (relocated_accessible h.place _).mpr ha
    rw [argument_alone (m := relocate d n) h.place.user there h.agree, ← read_accessible there]
    exact relocated_read h.place _
  cases hn with
  | output hcall hw => exact ⟨n', .output (hac ▸ hcall) (argument.trans hw), h⟩
  | input v hcall =>
    refine ⟨_, .input v (hac ▸ hcall), h.place.of_view ⟨rfl, rfl, rfl⟩, ?_⟩
    exact h.agree.setCpu (h.agree.cpu.ac_set _)
  | sleep hcall hw hpos => exact ⟨n', .sleep (hac ▸ hcall) (argument.trans hw) hpos, h⟩
  | awake hcall hw hzero => exact ⟨n', .awake (hac ▸ hcall) (argument.trans hw) hzero, h⟩
  | unknown hcall => exact ⟨n', .unknown (hac ▸ hcall), h⟩

theorem Twins.step (h : Twins floor d m m') (hs : CarefulStep floor m os k) :
    ∃ k', AloneStep m' os k' ∧ Twins floor d k k' := by
  obtain ⟨hs, hcare⟩ := hs
  cases hs with
  | instruction u hf hop hh =>
    obtain ⟨n', hf', twins⟩ := h.fetched hf (hcare _ _ hf)
    obtain ⟨succeeds, after⟩ := twins.handler (u := u) (hcare _ _ hf) (by rw [hh])
    rw [hh] at after
    exact ⟨_, .instruction u hf' hop (Prod.ext succeeds rfl), after⟩
  | call hf hop ha =>
    obtain ⟨n', hf', twins⟩ := h.fetched hf (hcare _ _ hf)
    obtain ⟨k', ha', after⟩ := twins.answered ((hcare _ _ hf).top hop) ha
    exact ⟨k', .call hf' hop ha', after⟩

end

def KeepsRelative (p : Int) (s : System) (e : Event) : Prop :=
  Runs s e p → ∀ u inst m, executed s e = some (u, inst, m) → ¬ Absolute inst.opCode

/-- A process that keeps the rules from its creation at `j` to the index `i`, among mannerly ones. -/
structure Tenant (keyboard : Nat → Int) (es : List Event) (floor p : Int) (j i : Nat) : Prop where
  mannerly : ∀ k e, es[k]? = some e → Mannerly (Trace.stateAt next (boot keyboard) es k) e
  lifetime : Lifetime (boot keyboard) es j p i
  inside : i ≤ es.length
  disciplined : ∀ k e, j < k → k ≤ i → es[k]? = some e →
    KeepsDiscipline floor p (Trace.stateAt next (boot keyboard) es k) e
  relative : ∀ k e, j < k → k ≤ i → es[k]? = some e →
    KeepsRelative p (Trace.stateAt next (boot keyboard) es k) e

def startOf (keyboard : Nat → Int) (es : List Event) (p : Int) (j : Nat) : Machine :=
  machineOf (Trace.stateAt next (boot keyboard) es (j + 1)) p

def PerformsBetween (keyboard : Nat → Int) (es : List Event) (p : Int) (j i : Nat)
    (o : Nat → List Effect) : Prop :=
  ∀ k e, j < k → k < i → es[k]? = some e →
    Performs p (Trace.stateAt next (boot keyboard) es k) e (o k)

def EndedAt (keyboard : Nat → Int) (es : List Event) (p : Int) (i : Nat) : Prop :=
  ∃ e, es[i]? = some e ∧ e ≠ .restart ∧
    ¬ Live (next (Trace.stateAt next (boot keyboard) es i) e).kernel p

def SameStart (floor : Int) (m m' : Machine) : Prop :=
  Agree (Home floor (relocateCpu (m'.cpu.rb - m.cpu.rb) m.cpu))
    (relocate (m'.cpu.rb - m.cpu.rb) m) m'

section

variable {floor p : Int} {s : System} {e : Event} {t : Machine}

theorem careful_of_agree {inst : Instruction} {m n : Machine} (h : Agree (Home floor m.cpu) m n)
    (hm : Careful floor inst m) : Careful floor inst n := by
  have view := h.cpu.view
  refine ⟨?_, ?_, ?_, hm.unprivileged, hm.noTransfer, hm.relative⟩
  · rw [translate_congr view, h.cpu.psw, h.cpu.home]
    exact hm.code
  · intro hfetches hmode hacc
    rw [h.cpu.address, accessible_congr view] at hacc
    rw [h.cpu.address, translate_congr view, h.cpu.home]
    exact hm.operand hfetches hmode hacc
  · intro hop
    rw [accessible_congr view, h.cpu.sp]
    exact hm.top hop

/-- The instruction that a running process is about to execute alone is a careful one. -/
theorem careful_alone (hm : Mannerly s e) (hp : Live s.kernel p) (hd : KeepsDiscipline floor p s e)
    (hr : KeepsRelative p s e) (hruns : Runs s e p)
    (agree : Agree (Home floor (registers s p)) (machineOf s p) t) :
    ∀ inst n, fetched t = some (inst, n) → Careful floor inst n := by
  intro inst n hf
  have kept := hd hruns
  have relative := hr hruns
  obtain ⟨hcur, u, rfl⟩ := hruns
  have own := agree.running hcur
  have hc : s.kernel.currentActiveProcess ≠ -1 := by
    have := hp.1
    omega
  cases hs : fetched s.hw with
  | none =>
    rw [own.unfetched hs] at hf
    cases hf
  | some x =>
    obtain ⟨inst', m⟩ := x
    have hx := executed_of_fetched (u := u) hc hs
    have hdisc := kept u inst' m hx
    have hmannerly := hm u inst' m hx
    obtain ⟨n', hf', hagree⟩ := home_fetched own hs (fetched_from_home hs hdisc.code)
    rw [hf] at hf'
    obtain ⟨rfl, rfl⟩ := Prod.mk.inj (Option.some.inj hf')
    exact careful_of_agree hagree ⟨hdisc.code, hdisc.operand, hdisc.top, hmannerly.unprivileged,
      hmannerly.noTransfer, relative u inst m hx⟩

/-- The whole life of such a process, alone, in careful steps. -/
theorem tenant_alone {keyboard : Nat → Int} {es : List Event} {i j : Nat} (hfloor : 0 ≤ floor)
    (h : Tenant keyboard es floor p j i) :
    ∃ o t, PerformsBetween keyboard es p j i o ∧
      Simulation.Steps (CarefulStep floor) (startOf keyboard es p j)
        (Simulation.shown o (j + 1) i) t ∧
      (EndedAt keyboard es p i → ∀ os t', ¬ AloneStep t os t') := by
  obtain ⟨o, t, hperforms, hsteps, hagree⟩ := Simulation.run_simulated (CarefulStep floor)
    (fun _ s t => Agree (Home floor (registers s p)) (machineOf s p) t)
    (fun _ s e os => Performs p s e os) (Nat.succ_le_of_lt h.lifetime.after) h.inside
    (Agree.refl _ _) (by
      intro k e t hjk hki he agree
      have orderly := state_at_orderly h.mannerly (by have := h.inside; omega : k ≤ es.length)
      have hlive := h.lifetime.live k hjk (by omega)
      have hnext := h.lifetime.live (k + 1) (by omega) (by omega)
      rw [Trace.stateAt_succ he] at hnext
      have disciplined := h.disciplined k e hjk (by omega) he
      obtain ⟨os, t', hperforms, hstep, hafter⟩ := event_alone hfloor orderly (h.mannerly k e he)
        hlive hnext disciplined agree
      rcases hstep with ⟨hruns, hstep⟩ | ⟨rfl, rfl, -⟩
      · have careful := careful_alone (h.mannerly k e he) hlive disciplined
          (h.relative k e hjk (by omega) he) hruns agree
        exact ⟨os, t', hperforms, .single ⟨hstep, careful⟩, hafter⟩
      · exact ⟨[], t', hperforms, .refl _, hafter⟩)
  refine ⟨o, t, fun k e hjk => hperforms k e hjk, hsteps, ?_⟩
  rintro ⟨e, he, hne, hdead⟩
  exact ended_stuck hfloor (state_at_orderly h.mannerly h.inside) (h.mannerly i e he)
    (h.lifetime.live i h.lifetime.after le_rfl) hdead hne
    (h.disciplined i e h.lifetime.after le_rfl he) hagree

/-- A process starts in its partition, and all partitions are in memory. -/
theorem start_placed {keyboard : Nat → Int} {es : List Event} {i j : Nat}
    (h : Tenant keyboard es floor p j i) :
    (startOf keyboard es p j).cpu.psw.mode = .user ∧ 0 ≤ (startOf keyboard es p j).cpu.rb ∧
      (startOf keyboard es p j).cpu.rl < 2000 := by
  have hbound := h.inside
  have hafter := h.lifetime.after
  have orderly := state_at_orderly h.mannerly (by omega : j + 1 ≤ es.length)
  have hlive := h.lifetime.live (j + 1) (by omega) (by omega)
  obtain ⟨-, -, hlo, -, hhi⟩ := partition_bounds orderly.owned hlive
  obtain ⟨⟨hmode, hb, hl⟩, -⟩ := (orderly.home p hlive).enclosed
  refine ⟨hmode, ?_, ?_⟩
  · exact hlo.trans_eq hb.symm
  · exact hl.trans_lt hhi

end

def relativeStep (p : Int) (s : System) (e : Event) : Bool :=
  s.kernel.currentActiveProcess ≠ p ||
    (executed s e).all (fun x => x.2.1.opCode ∉ [OpCode.loadrb, .loadrl, .sdmam])

theorem keeps_relative_of_check {p : Int} {s : System} {e : Event} (h : relativeStep p s e) :
    KeepsRelative p s e := by
  intro hruns u inst m hx
  rw [relativeStep, hruns.1, hx] at h
  simpa [Absolute] using h

def printsElsewhere : List Event :=
  let host := hostOf "_start 1\n.N 4\n.P A\n04100007\n25100000\n04100002\n13100000\n"
    "_start 1\n.N 2\n.P B\n04100003\n13100000\n"
  .create host zeros ['b'] :: .create host zeros ['a'] :: .monitor true ::
    List.replicate 8 (.worker zeros)

theorem prints_tenant : Tenant zeroKeys printsAmongOthers 40 0 0 11 := by
  have relative : ∀ k < printsAmongOthers.length, ∀ e ∈ printsAmongOthers[k]?,
      relativeStep 0 (Trace.stateAt next (boot zeroKeys) printsAmongOthers k) e := by
    decide +kernel
  exact ⟨prints_mannerly, prints_lives, by decide, fun k e _ _ he => prints_disciplined k e he,
    fun k e _ _ he => keeps_relative_of_check (Trace.every_index relative he)⟩

theorem prints_elsewhere_tenant : Tenant zeroKeys printsElsewhere 40 1 1 11 := by
  have rules : ∀ k < printsElsewhere.length, ∀ e ∈ printsElsewhere[k]?,
      plainStep (Trace.stateAt next (boot zeroKeys) printsElsewhere k) e ∧
      immediateStep 40 1 (Trace.stateAt next (boot zeroKeys) printsElsewhere k) e ∧
      relativeStep 1 (Trace.stateAt next (boot zeroKeys) printsElsewhere k) e := by
    decide +kernel
  have lives : Lifetime (boot zeroKeys) printsElsewhere 1 1 11 :=
    .of_live ⟨_, _, _, rfl⟩ (by decide) (by decide +kernel)
  exact ⟨fun k e he => mannerly_of_plain (Trace.every_index rules he).1, lives, by decide,
    fun k e _ _ he => keeps_of_immediate (Trace.every_index rules he).2.1,
    fun k e _ _ he => keeps_relative_of_check (Trace.every_index rules he).2.2⟩

end Lucario.Proofs
