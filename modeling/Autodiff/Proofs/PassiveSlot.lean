import Autodiff.Proofs.Grounding
import Autodiff.Proofs.Sessions

namespace Autodiff

variable {F : Type} [Scalar F]

namespace Tape

variable {t : Tape F}

/-- The slot of passive variables exists and holds zero, no statement writes to it or reads it, and
so identifiers past the end of a vector read zero. -/
structure ZeroSlot (t : Tape F) : Prop where
  one_le_size : 1 ≤ t.vectors.adjoints.size
  adjoint_eq : t.vectors.adjoints.slot passive = 0
  primals : ∀ p ∈ t.vectors.primals, 1 ≤ p.size ∧ p.slot passive = 0
  output_ne : ∀ st ∈ t.log, st.kind = .elementary ∨ st.kind = .input → st.output ≠ passive
  arguments_ne : ∀ st ∈ t.log, ∀ arg ∈ st.arguments, arg.1 ≠ passive
  pending_ne : ∀ arg ∈ t.pending, arg.1 ≠ passive
  gradient_eq : ∀ id, t.vectors.adjoints.size ≤ id → t.gradient id = 0
  primal_eq : ∀ p ∈ t.vectors.primals, ∀ id, p.size ≤ id → t.primal? id = some 0

theorem Grounded.zeroSlot (h : t.Grounded) (hz : t.vectors.adjoints.slot passive = 0) :
    t.ZeroSlot := by
  have hend {v : Slots F} (hv : v.slot passive = 0) {id : Identifier} (hid : v.size ≤ id) :
      v.get id = 0 := by
    rw [Slots.get_eq_slot hv, Slots.slot_of_size_le v id hid]
  refine ⟨Nat.le_add_left .., hz, fun p hp => ⟨Nat.le_add_left .., h.primal_eq p hp⟩,
    fun st hst hkind => (h.log st hst).output_ne fun k hk => ?_,
    fun st hst => (h.log st hst).arguments_ne, h.pending_ne, fun id hid => hend hz hid,
    fun p hp id hid => ?_⟩
  · rcases hkind with hkind | hkind <;> rw [hkind] at hk <;> cases hk
  · rw [primal?, Option.mem_def.mp hp, Option.map_some, hend (h.primal_eq p hp) hid]

end Tape

namespace Session

variable {s s' : Session F} {catalogue : Script F → Catalogue F} {t : Nat} {command : Command F}
  {outcome : Outcome F}

theorem tape_mem_or_new (s : Session F) (t : Nat) :
    s.tape t ∈ s.tapes ∨ s.tape t = .new .linear .jacobian := by
  by_cases ht : t < s.tapes.length
  · left
    simp [tape, ht]
  · right
    simp [tape, Nat.le_of_not_lt ht]

theorem mem_swap {other : Nat} {u : Tape F} (hu : u ∈ (s.swap t other).session.tapes) :
    u ∈ s.tapes ∨ u = .new .linear .jacobian := by
  rcases List.mem_or_eq_of_mem_set hu with hu | rfl
  · rcases List.mem_or_eq_of_mem_set hu with hu | rfl
    · exact .inl hu
    · exact s.tape_mem_or_new other
  · exact s.tape_mem_or_new t

theorem step_grounded (hs : ∀ u ∈ s.tapes, u.Grounded)
    (h : s.step catalogue t command = .ok outcome) :
    ∀ u ∈ outcome.session.tapes, u.Grounded := by
  intro u hu
  by_cases hswap : ∃ other, command = .swap other
  · obtain ⟨other, rfl⟩ := hswap
    cases h
    rcases mem_swap hu with hu | rfl
    · exact hs u hu
    · exact Tape.grounded_new ..
  · obtain ⟨t', hleads, htapes⟩ := step_moves h (not_exists.mp hswap)
    rw [htapes] at hu
    rcases List.mem_or_eq_of_mem_set hu with hu | rfl
    · exact hs u hu
    · apply hleads.grounded
      rcases s.tape_mem_or_new t with ht | ht
      · exact hs _ ht
      · rw [ht]
        exact Tape.grounded_new ..

/-- The caller writes nothing but zero to the slot of passive variables. -/
def Spares (s : Session F) (t : Nat) : Command F → Prop
  | .writeGradient ref x => s.identifier t ref = passive → x = 0
  | .fillAdjoints x => x = 0
  | _ => True

def SparesAll (s : Session F) (catalogue : Script F → Catalogue F) : List (Nat × Command F) → Prop
  | [] => True
  | (t, command) :: steps =>
    s.Spares t command ∧
      ∀ outcome, s.step catalogue t command = .ok outcome →
        outcome.session.SparesAll catalogue steps

theorem setParameter_adjoint {u u' : Tape F} {name : String} {n : Nat}
    (h : u.setParameterByName name n = .ok u') :
    u'.vectors.adjoints.slot passive = u.vectors.adjoints.slot passive := by
  obtain ⟨p, -, h⟩ := exists_of_bind_eq_ok h
  cases p with
  | adjointSize =>
    cases h
    exact Slots.slot_resize_passive ..
  | primalSize =>
    rw [Tape.setParameter] at h
    split at h
    · cases h
      rfl
    · cases h
  | largestIdentifier => cases h
  | _ =>
    cases h
    rfl

theorem step_adjoint (h : s.step catalogue t command = .ok outcome)
    (hswap : ∀ other, command ≠ .swap other) (hspares : s.Spares t command)
    (hlog : ∀ st ∈ (s.tape t).log, st.Grounded)
    (hz : (s.tape t).vectors.adjoints.slot passive = 0) :
    ∃ t', t'.vectors.adjoints.slot passive = 0 ∧ outcome.session.tapes = s.tapes.set t t' := by
  have hsame {s' : Session F} (h : s'.tapes = s.tapes) :
      ∃ t', t'.vectors.adjoints.slot passive = 0 ∧ s'.tapes = s.tapes.set t t' :=
    ⟨s.tape t, hz, by rw [h, set_tape_self]⟩
  cases command with
  | operate op =>
    obtain ⟨⟨note, r⟩, hr, h⟩ := exists_of_bind_eq_ok h
    cases h
    refine ⟨r.tape, ?_, rfl⟩
    rw [(Recording.apply_records (eq_ok_of_quiet hr)).adjoints_eq]
    exact hz
  | addRecord token fixedSize dynamicSize fixed dynamic =>
    obtain ⟨⟨notes, u⟩, hu, h⟩ := exists_of_bind_eq_ok (eq_ok_of_quiet h)
    cases h
    refine ⟨u, ?_, rfl⟩
    rw [(Tape.Records.addRecord hu).adjoints_eq]
    exact hz
  | clear =>
    obtain ⟨u, hu, rfl⟩ := exists_of_map_eq_ok h
    obtain ⟨u₁, -, hu⟩ := exists_of_bind_eq_ok hu
    cases hu
    exact ⟨_, rfl, rfl⟩
  | backTo p =>
    obtain ⟨u, hu, rfl⟩ := exists_of_map_eq_ok h
    refine ⟨u.tape, ?_, rfl⟩
    rw [Tape.vectors_backTo hu]
    exact hz
  | adjointSweepAll =>
    obtain ⟨u, hu, rfl⟩ := exists_of_map_eq_ok h
    exact ⟨u.tape, (Tape.adjointSweep_samePassive hlog hu).adjoint_eq.trans hz, rfl⟩
  | tangentSweepAll =>
    obtain ⟨u, hu, rfl⟩ := exists_of_map_eq_ok h
    exact ⟨u.tape, (Tape.tangentSweep_samePassive hlog hu).adjoint_eq.trans hz, rfl⟩
  | adjointSweep start stop =>
    obtain ⟨u, hu, rfl⟩ := exists_of_map_eq_ok h
    exact ⟨u.tape, (Tape.adjointSweep_samePassive hlog hu).adjoint_eq.trans hz, rfl⟩
  | tangentSweep start stop =>
    obtain ⟨u, hu, rfl⟩ := exists_of_map_eq_ok h
    exact ⟨u.tape, (Tape.tangentSweep_samePassive hlog hu).adjoint_eq.trans hz, rfl⟩
  | setGradient ref x =>
    cases h
    exact ⟨_, (Vectors.SamePassive.touch (.setGradient _ x) _).adjoint_eq.trans hz, rfl⟩
  | writeGradient ref x =>
    cases h
    refine ⟨_, (Slots.slot_set ..).trans ?_, rfl⟩
    split
    case isTrue hid => exact hspares hid
    case isFalse => exact hz
  | zeroAdjoints =>
    cases h
    exact ⟨_, rfl, rfl⟩
  | shrink =>
    obtain ⟨u, hu, rfl⟩ := exists_of_map_eq_ok h
    obtain ⟨pool, -, hu⟩ := exists_of_bind_eq_ok (eq_ok_of_quiet hu)
    cases hu
    exact ⟨_, rfl, rfl⟩
  | fillAdjoints x =>
    cases h
    refine ⟨_, ?_, rfl⟩
    exact hspares
  | resizeAdjoints n =>
    cases h
    refine ⟨_, ?_, rfl⟩
    exact (Slots.slot_resize_passive ..).trans hz
  | swap other => exact absurd rfl (hswap other)
  | setParameter name n =>
    cases h
    unfold request
    split
    case h_1 u hu => exact ⟨u, (setParameter_adjoint hu).trans hz, rfl⟩
    case h_2 => exact hsame rfl
  | getParameter name =>
    cases h
    unfold request
    split <;> exact hsame rfl
  | report =>
    obtain ⟨r, -, h⟩ := exists_of_bind_eq_ok h
    cases h
    exact hsame rfl
  | poolTake values identifiers =>
    cases h
    refine ⟨_, ?_, rfl⟩
    exact hz
  | poolGive =>
    obtain ⟨pool, -, h⟩ := exists_of_bind_eq_ok (eq_ok_of_quiet h)
    obtain ⟨pool', -, h⟩ := exists_of_bind_eq_ok h
    cases h
    refine ⟨_, ?_, rfl⟩
    exact hz
  | _ =>
    cases h
    exact hsame rfl

theorem step_sparing (hs : ∀ u ∈ s.tapes, u.Grounded ∧ u.vectors.adjoints.slot passive = 0)
    (h : s.step catalogue t command = .ok outcome) (hspares : s.Spares t command) :
    ∀ u ∈ outcome.session.tapes, u.Grounded ∧ u.vectors.adjoints.slot passive = 0 := by
  intro u hu
  refine ⟨step_grounded (fun u hu => (hs u hu).1) h u hu, ?_⟩
  by_cases hswap : ∃ other, command = .swap other
  · obtain ⟨other, rfl⟩ := hswap
    cases h
    rcases mem_swap hu with hu | rfl
    · exact (hs u hu).2
    · rfl
  · have htape : (s.tape t).Grounded ∧ (s.tape t).vectors.adjoints.slot passive = 0 := by
      rcases s.tape_mem_or_new t with ht | ht
      · exact hs _ ht
      · rw [ht]
        exact ⟨Tape.grounded_new .., rfl⟩
    obtain ⟨t', hz, htapes⟩ := step_adjoint h (not_exists.mp hswap) hspares htape.1.log htape.2
    rw [htapes] at hu
    rcases List.mem_or_eq_of_mem_set hu with hu | rfl
    · exact (hs u hu).2
    · exact hz

theorem run_sparing {steps : List (Nat × Command F)}
    (hs : ∀ u ∈ s.tapes, u.Grounded ∧ u.vectors.adjoints.slot passive = 0)
    (hspares : s.SparesAll catalogue steps) (h : (s.run catalogue steps).2 = .ok s') :
    ∀ u ∈ s'.tapes, u.Grounded ∧ u.vectors.adjoints.slot passive = 0 := by
  induction steps generalizing s with
  | nil =>
    cases h
    exact hs
  | cons first steps ih =>
    obtain ⟨t, command⟩ := first
    rw [run] at h
    split at h
    case h_1 => cases h
    case h_2 outcome hstep =>
      exact ih (step_sparing hs hstep hspares.1) (hspares.2 outcome hstep) h

theorem start_sparing (policy : Policy) (kinds : List TapeKind) (values : List F) :
    ∀ u ∈ (start policy kinds values).tapes,
      u.Grounded ∧ u.vectors.adjoints.slot passive = 0 := by
  intro u hu
  obtain ⟨kind, -, rfl⟩ := List.mem_map.mp hu
  exact ⟨Tape.grounded_new .., rfl⟩

theorem passive_slot_zero {policy : Policy} {kinds : List TapeKind} {values : List F}
    {steps : List (Nat × Command F)}
    (hspares : (start policy kinds values).SparesAll catalogue steps)
    (h : ((start policy kinds values).run catalogue steps).2 = .ok s) :
    ∀ t ∈ s.tapes, t.ZeroSlot := by
  intro t ht
  obtain ⟨hgrounded, hz⟩ := run_sparing (start_sparing policy kinds values) hspares h t ht
  exact hgrounded.zeroSlot hz

theorem sparesAll_of_forall {steps : List (Nat × Command F)}
    (h : ∀ step ∈ steps, ∀ s : Session F, s.Spares step.1 step.2) :
    s.SparesAll catalogue steps := by
  induction steps generalizing s with
  | nil => trivial
  | cons step steps ih =>
    refine ⟨h step List.mem_cons_self s, fun outcome _ => ?_⟩
    exact ih fun step hstep => h step (List.mem_cons_of_mem _ hstep)

def scripted (script : Script Int) : Catalogue Int := ⟨fun _ => some script.kernel, fun _ => ⟨0⟩⟩

def aimedAtPassive : List (Nat × Command Int) :=
  [(0, .script ⟨[], [.setGradient (.identifier 0) 9, .setPrimal (.identifier 0) 4,
      .addGradient (.identifier 5) 2], []⟩),
    (0, .operate (.input 0)),
    (0, .operate (.assign 1 6 [(.variable 0, 2), (.identifier 0, 5)])),
    (0, .addRecord ⟨0⟩ 0 0 [] []),
    (0, .writeGradient (.identifier 2) 1),
    (0, .adjointSweepAll)]

theorem sparesAll_aimedAtPassive (s : Session Int) : s.SparesAll scripted aimedAtPassive := by
  apply sparesAll_of_forall
  intro step hstep s
  simp only [aimedAtPassive, List.mem_cons, List.not_mem_nil, or_false] at hstep
  rcases hstep with rfl | rfl | rfl | rfl | rfl | rfl
  case inr.inr.inr.inr.inl => exact fun h => absurd h (Nat.succ_ne_zero 1)
  all_goals trivial

theorem passive_slot_zero_aimedAtPassive : ∃ s : Session Int,
    (start .reuse [.primalValues] [3, 0]).SparesAll scripted aimedAtPassive ∧
      ((start .reuse [.primalValues] [3, 0]).run scripted aimedAtPassive).2 = .ok s ∧
      (s.tape 0).vectors.adjoints.toList = [0, 2, 0, 0, 0, 2] ∧
      ∀ t ∈ s.tapes, t.ZeroSlot := by
  have hrun : ((start .reuse [.primalValues] [3, 0]).run scripted aimedAtPassive).2 = .ok _ := rfl
  have hspares := sparesAll_aimedAtPassive (start .reuse [.primalValues] [3, 0])
  exact ⟨_, hspares, hrun, rfl, passive_slot_zero hspares hrun⟩

end Session

end Autodiff
