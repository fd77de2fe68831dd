import Autodiff.Proofs.Advances
import Autodiff.Proofs.Deletion
import Autodiff.Proofs.Splitting

namespace Autodiff

open History Occurrence

variable {F : Type} [Scalar F] {n : Nat}

theorem History.primals_append_of_notMem {es fs : History F} {id : Identifier}
    (h : id ∉ (writes fs).map Prod.fst) : primals (es ++ fs) id = primals es id := by
  rw [primals, writes, List.flatMap_append, overwrite_append]
  exact overwrite_of_notMem _ h

theorem Ledger.Sound.mem_writes_before {σ : Ledger F n} (h : σ.Sound) {es : History F}
    {e : Event F} (hinitial : es ++ [e] <+: σ.history) {id : Identifier} (hid : e.Reads id) :
    id ∈ (writes es).map Prod.fst := by
  cases e with
  | elementary => exact hid.elim
  | input => exact hid.elim
  | product c =>
    obtain ⟨x, hx, hactive, rfl⟩ := hid
    exact (h.known es c hinitial x hx (by simpa [Variable.isActive] using hactive)).1

theorem Ledger.Sound.mem_writes_of_reads {σ : Ledger F n} (h : σ.Sound) {e : Event F}
    (he : e ∈ σ.history) {id : Identifier} (hid : e.Reads id) :
    id ∈ (writes σ.history).map Prod.fst := by
  obtain ⟨es, fs, hhistory⟩ := List.append_of_mem he
  have hinitial : es ++ [e] <+: σ.history := ⟨fs, by rw [hhistory]; simp⟩
  have hbefore := h.mem_writes_before hinitial hid
  rw [hhistory, writes, List.flatMap_append, List.map_append]
  exact List.mem_append_left _ hbefore

namespace Recording

variable {token : Token} {r r' : Recording F} {σ σ' : Ledger F n} {os : List (Occurrence F)}

theorem primals_eq_of_sees [LawfulCells F] (h' : r'.Tracks token σ') (hσ : σ.Sound)
    (hσ' : σ'.Sound) (hinitial : σ.history <+: σ'.history)
    (hgrows : Tape.Grows token r.tape r'.tape) (hcovers : r.tape.Covers token r.tape.log os)
    (hevents : os.map Occurrence.event = σ.history.filter (Event.isLogged r.tape.traits))
    (hfree : r'.tape.LeavesFactors r.tape.log (r'.tape.range r.tape.position r'.tape.position))
    {o : Occurrence F} (ho : o ∈ os) {id : Identifier} (hid : o.event.Sees r.tape.traits id) :
    primals σ'.history id = primals σ.history id := by
  obtain ⟨fs, hfs⟩ := hinitial
  rw [← hfs]
  apply primals_append_of_notMem
  intro hmem
  have hlinear : r.tape.traits.linear = σ'.issuer.policy.isLinear := by
    rw [← hgrows.traits_eq, ← h'.follows.issuer_eq]
    rfl
  rcases hσ'.linear_or_rollsBack hlinear hid.1 with ⟨hd, -⟩ | hb
  · -- No identifier is ever written twice.
    have hevent : o.event ∈ σ.history.filter (Event.isLogged r.tape.traits) :=
      hevents ▸ List.mem_map_of_mem ho
    have hearlier := hσ.mem_writes_of_reads (List.mem_of_mem_filter hevent) hid.2
    rw [← hfs, writes, List.flatMap_append, List.map_append] at hd
    exact (List.pairwise_append.mp hd).2.2 id hearlier id hmem hid.2.ne_passive rfl
  · obtain ⟨os', hcovers', hevents'⟩ := h'.follows.logged.exists_covers hσ'.regular
    have hall (es : History F) : es.filter (Event.isLogged r.tape.traits) = es :=
      List.filter_eq_self.mpr fun e _ => e.isLogged_of_rollsBack hb
    rw [hall] at hevents
    rw [hgrows.traits_eq, hall, ← hfs, ← hevents] at hevents'
    have hlength : r.tape.log.length = os.length := hcovers.length_eq
    have hlater : (os'.drop r.tape.log.length).map Occurrence.event = fs := by
      rw [List.map_drop, hevents', hlength, List.drop_append_of_le_length (by simp)]
      simp
    obtain ⟨added, hadded, -⟩ := hgrows.records
    obtain ⟨w, hw, rfl⟩ := List.mem_map.mp hmem
    obtain ⟨e, he, hwe⟩ := List.mem_flatMap.mp hw
    rw [← hlater] at he
    obtain ⟨o', ho', rfl⟩ := List.mem_map.mp he
    have hslice := hcovers'.slice r.tape.statementCount r'.tape.statementCount
    have hmem' : o' ∈ (os'.take r'.tape.statementCount).drop r.tape.statementCount := by
      have hlength' : r'.tape.statementCount = os'.length := hcovers'.length_eq
      rw [hlength', List.take_length]
      exact ho'
    exact (hcovers.mono hgrows.traits_eq hadded).notMem_writes hslice hfree ho hmem' hid.2
      (by rw [hgrows.traits_eq]; exact hb) (List.mem_map_of_mem hwe)

/-- Whatever a program does after a position, its recording can go back to it. From any derivatives,
a sweep then gives what it would have given at the position. Where primals are rolled back, the part
that is dropped must not have overwritten what a record before the position reads. -/
theorem discarding_keeps_adjoints [LawfulCells F] (policy : Policy) (kind : TapeKind)
    (c : Catalogue F) (hk : c.kernels (c.token .product) = some Product.kernel) (values : Fin n → F)
    (kept dropped : List (Instruction F n)) :
    ∃ (r r' : Recording F) (s : Traced F),
      (fresh policy kind values).run c (kept.map Instruction.operation) = .ok r ∧
      r.run c (dropped.map Instruction.operation) = .ok r' ∧
      r'.tape.backTo c.kernels r.tape.position = .ok s ∧
      s.tape.log = r.tape.log ∧ s.tape.records = r.tape.records ∧
      (r'.tape.LeavesFactors r.tape.log (r'.tape.range r.tape.position r'.tape.position) →
        ∀ x : Slots F, x.slot passive = 0 → ∃ before after : Traced F,
          (r.tape.withAdjoints x).adjointSweepAll c.kernels = .ok before ∧
          (s.tape.withAdjoints x).adjointSweepAll c.kernels = .ok after ∧
          ∀ id, after.tape.gradient id = before.tape.gradient id) := by
  have served (is : List (Instruction F n)) : ∀ i ∈ is, i.Served c := fun i _ => i.served hk
  obtain ⟨σ, -, hσ, hserved, r, hr, h⟩ := fresh_run c policy kind values kept (served _)
  obtain ⟨σ', hrun, hσ', -, r', hr', h'⟩ := h.run hσ hserved dropped (served _)
  have hgrows := run_grows hr'
  obtain ⟨hinitial, -, hlargest⟩ := hσ.run_history hrun
  obtain ⟨os, hcovers, hevents⟩ := h.follows.logged.exists_covers hσ.regular
  obtain ⟨added, hadded, hstores⟩ := hgrows.records
  obtain ⟨m, hm⟩ : ∃ m, r'.tape.issuer.rewind r.tape.position.largest = .ok m := by
    rw [h'.follows.issuer_eq]
    exact Issuer.exists_rewind (by simpa [Tape.position, h.follows.issuer_eq] using hlargest)
  have hback := Tape.backTo_yields hk h'.follows.lent_eq hgrows.log.length_le
    (by rw [hadded]; simp [Tape.position]) hm fun record hrecord => by
      rw [hadded] at hrecord
      rw [hgrows.traits_eq]
      exact hstores record (by simpa [Tape.position] using hrecord)
  obtain ⟨s, hs, pool, hpool, htape⟩ := hback
  have hlog : s.tape.log = r.tape.log := by
    rw [htape]
    exact (List.prefix_iff_eq_take.mp hgrows.log).symm
  have hrecords : s.tape.records = r.tape.records := by
    rw [htape]
    simp [hadded, Tape.position]
  refine ⟨r, r', s, hr, hr', hs, hlog, hrecords, fun hfree x hx => ?_⟩
  have htraits : s.tape.traits = r.tape.traits := by
    rw [← hgrows.traits_eq, Tape.traits, Tape.traits, htape]
    simp [Tape.hasPrimals, (Issuer.policy_rewind hm).1]
  have hcarries : (s.tape.withAdjoints x).Carries s.tape x (primals σ'.history) := by
    refine ⟨rfl, rfl, rfl, rfl, rfl, ?_, rfl, ?_⟩
    · simpa [Tape.withAdjoints, htape] using hpool
    · simpa [Tape.withAdjoints, htape] using h'.follows.primals_eq
  have hcovers' : s.tape.Covers (c.token .product) s.tape.log os := by
    rw [hlog]
    exact hcovers.congr htraits hrecords
  have hspan (t : Tape F) : (Position.zero).statements ≤ t.position.statements ∧
      t.position.statements ≤ t.statementCount := ⟨Nat.zero_le _, Nat.le_refl _⟩
  obtain ⟨before, hbefore, u, hu, hsweep⟩ := hcovers.adjointSweep_yields hk
    (h.withAdjoints_carries x) (primals_passive _) (hspan (r.tape.withAdjoints x))
  obtain ⟨after, hafter, u', hu', hsweep'⟩ := hcovers'.adjointSweep_yields hk hcarries
    (primals_passive _) (hspan (s.tape.withAdjoints x))
  refine ⟨before, after, hbefore, hafter, ?_⟩
  have hcount : (s.tape.withAdjoints x).position.statements =
      (r.tape.withAdjoints x).position.statements := congrArg List.length hlog
  rw [htraits, hcount] at hsweep'
  -- Both sweeps replay the same events, and find the same under all identifiers that these read.
  have hseen : ∀ o ∈ (os.take (r.tape.withAdjoints x).position.statements).drop
      Position.zero.statements, o.event.Regular ∧ ∀ id, o.event.Sees r.tape.traits id →
        ∃ o ∈ os, o.event.Sees r.tape.traits id := by
    intro o ho
    have hmem := List.mem_of_mem_take (List.mem_of_mem_drop ho)
    exact ⟨(hcovers.exists_statement hmem).1, fun id hid => ⟨o, hmem, hid⟩⟩
  have hagree (id : Identifier) (hid : ∃ o ∈ os, o.event.Sees r.tape.traits id) :
      primals σ'.history id = primals σ.history id := by
    obtain ⟨o, ho, hid⟩ := hid
    exact primals_eq_of_sees h' hσ hσ' hinitial hgrows hcovers hevents hfree ho hid
  have hall := Occurrence.reverseAll_congr r.tape.traits hseen
    (.of_slot_eq (hu'.trans hu.symm) ((congrFun hu' passive).trans hx) hagree)
  intro id
  rw [hsweep'.gradient_eq hall.slot_passive,
    hsweep.gradient_eq ((congrFun hall.slot_eq passive).symm.trans hall.slot_passive),
    hall.slot_eq]

theorem discarding_keeps_adjoints_squareOf :
    ∃ (r r' : Recording Int) (s : Traced Int),
      (fresh .reuse .primalValues ![3, 0, 0]).run productOnly
        [.input 0, .multiply .byRow 1 1 1 [0] [0] [1]] = .ok r ∧
      r.run productOnly [.assign 1 4 [(.variable 0, 2)]] = .ok r' ∧
      r'.tape.backTo productOnly.kernels r.tape.position = .ok s ∧
      ∃ before after : Traced Int,
        (r.tape.withAdjoints ⟨0, [0, 1]⟩).adjointSweepAll productOnly.kernels = .ok before ∧
        (s.tape.withAdjoints ⟨0, [0, 1]⟩).adjointSweepAll productOnly.kernels = .ok after ∧
        ∀ id, after.tape.gradient id = before.tape.gradient id := by
  obtain ⟨r, r', s, hr, hr', hs, -, -, hkeeps⟩ := discarding_keeps_adjoints .reuse .primalValues
    productOnly rfl ![3, 0, 0] [.input 0, .multiply squareOf] [.line (.assign 1 4 [(0, 2)])]
  refine ⟨r, r', s, hr, hr', hs, hkeeps ?_ ⟨0, [0, 1]⟩ rfl⟩
  cases hr
  cases hr'
  decide

/-- The factor of a square is overwritten after a position. Back at this position the square is still
replayed with the new value, and gives ten instead of six. -/
theorem not_discarding_keeps_adjoints_square :
    ∃ (r r' : Recording Int) (s : Traced Int),
      (fresh .reuse .primalValues ![3, 0, 0]).run productOnly
        [.input 0, .multiply .byRow 1 1 1 [0] [0] [1]] = .ok r ∧
      r.run productOnly [.assign 0 5 [(.variable 0, 1)]] = .ok r' ∧
      r'.tape.backTo productOnly.kernels r.tape.position = .ok s ∧
      ∃ before after : Traced Int,
        (r.tape.withAdjoints ⟨0, [0, 1]⟩).adjointSweepAll productOnly.kernels = .ok before ∧
        (s.tape.withAdjoints ⟨0, [0, 1]⟩).adjointSweepAll productOnly.kernels = .ok after ∧
        before.tape.gradient 1 = 6 ∧ after.tape.gradient 1 = 10 :=
  ⟨_, _, _, rfl, rfl, rfl, _, _, rfl, rfl, rfl, rfl⟩

end Recording

end Autodiff
