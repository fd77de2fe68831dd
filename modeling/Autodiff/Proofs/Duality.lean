import Autodiff.Proofs.Reachable
import Autodiff.Proofs.Transposition

namespace Autodiff

variable {F : Type} [ExactScalar F]

namespace History

theorem exists_logged {traits : Traits} {token : Token} {records : List (Record F)}
    {log : List (Statement F)}
    (h : ∀ st ∈ log, ∃ e, (∀ p, st.Records traits token records p e) ∧ e.Regular) :
    ∃ es, Logged traits token records log es ∧ ∀ e ∈ es, e.Regular := by
  induction log using List.reverseRecOn with
  | nil => exact ⟨[], .nil, nofun⟩
  | append_singleton log st ih =>
    obtain ⟨es, hlog, hes⟩ := ih fun st' hst' => h st' (List.mem_append_left _ hst')
    obtain ⟨e, he, hregular⟩ := h st (by simp)
    refine ⟨es ++ [e], hlog.append (he _), fun e' he' => ?_⟩
    rcases List.mem_append.mp he' with he' | he'
    · exact hes e' he'
    · rw [List.mem_singleton.mp he']
      exact hregular

end History

open History

theorem finsum_slot_mul (v : Slots F) (x : Identifier → F) {N : Nat} (hN : v.size ≤ N) :
    ∑ᶠ id, v.slot id * x id = ∑ id ∈ Finset.range N, v.slot id * x id := by
  refine finsum_eq_sum_of_support_subset _ fun id hid => ?_
  by_contra hmem
  have hle : N ≤ id := by simpa using hmem
  rw [Function.mem_support, Slots.slot_of_size_le v id (hN.trans hle), zero_mul] at hid
  exact hid rfl

theorem finsum_tangentMap_mul {es : History F} (hes : ∀ e ∈ es, e.Regular) {x y : Slots F}
    (hx : x.slot passive = 0) (hy : y.slot passive = 0) :
    ∑ᶠ id, tangentMap es x.slot id * y.slot id = ∑ᶠ id, x.slot id * adjointMap es y.slot id := by
  obtain ⟨N, hN⟩ := exists_below es
  have hbound : Below es (max N (max x.size y.size)) := fun e he =>
    (hN e he).mono (le_max_left ..)
  have hforward : ∑ᶠ id, tangentMap es x.slot id * y.slot id =
      ∑ id ∈ Finset.range (max N (max x.size y.size)), tangentMap es x.slot id * y.slot id := by
    simp only [mul_comm _ (y.slot _)]
    exact finsum_slot_mul y _ (le_max_of_le_right (le_max_right ..))
  rw [hforward, finsum_slot_mul x _ (le_max_of_le_right (le_max_left ..))]
  exact sum_tangentMap_mul hes hbound x.slot y.slot hx hy

namespace Tape

def IsDifferential (calls : List (Option (Product.Call F))) (st : Statement F) : Prop :=
  st.kind = .elementary ∨ ∃ k c, st.kind = .external k ∧ calls[k]? = some (some c) ∧
    DistinctActive c.results

theorem Sound.exists_records {token : Token} {t : Tape F} {calls : List (Option (Product.Call F))}
    (h : t.Sound token calls) (hp : t.hasPrimals = false) {st : Statement F} (hst : st ∈ t.log)
    (hd : IsDifferential calls st) :
    ∃ e, (∀ p, st.Records t.traits token t.records p e) ∧ e.Regular := by
  obtain ⟨id, kind, args, ow⟩ := st
  rcases hd with hkind | ⟨k, c, hkind, hc, hdistinct⟩
  · obtain rfl : kind = .elementary := hkind
    obtain ⟨hid, hargs⟩ := h.elementary_ne _ hst rfl
    exact ⟨.elementary id args 0,
      fun p => .elementary hid fun hprimals => by simp [traits, hp] at hprimals, hid, hargs⟩
  · obtain rfl : kind = .external k := hkind
    obtain ⟨record, olds, hr, hs⟩ := h.stores k c hc
    exact ⟨.product c,
      fun p => .product hr hs fun hb => by simp [traits, Traits.rollsBack, hp] at hb,
      hs.fits, hdistinct⟩

/-- Both sweeps are linear in the derivatives they start from, and each is the transpose of the
other. -/
theorem sweeps_transpose {kernels : Kernels F} {token : Token} {t : Tape F}
    {calls : List (Option (Product.Call F))} (ht : t.Reached token calls)
    (hjacobian : t.kind = .jacobian) (hidle : t.pool.isIdle = true)
    (hk : kernels token = some Product.kernel) (start stop : Position)
    (hspan : t.checkSpan start stop = .ok ())
    (hrange : ∀ st ∈ t.range start stop, IsDifferential calls st) :
    ∃ forward reverse : (Identifier → F) →ₗ[F] (Identifier → F),
      (∀ x : Slots F, x.slot passive = 0 →
        Yields ((t.withAdjoints x).tangentSweep kernels start stop) fun s =>
          s.tape.vectors.adjoints.slot = forward x.slot) ∧
      (∀ y : Slots F, y.slot passive = 0 →
        Yields ((t.withAdjoints y).adjointSweep kernels start stop) fun s =>
          s.tape.vectors.adjoints.slot = reverse y.slot) ∧
      ∀ x y : Slots F, x.slot passive = 0 → y.slot passive = 0 →
        ∑ᶠ id, forward x.slot id * y.slot id = ∑ᶠ id, x.slot id * reverse y.slot id := by
  have hp : t.hasPrimals = false := by
    cases h : t.hasPrimals with
    | false => rfl
    | true => simp [kind, h] at hjacobian
  have hnone : t.vectors.primals = none := by simpa [hasPrimals, Vectors.hasPrimals] using hp
  have hlent : t.pool.lent = 0 := by simpa [Pool.isIdle] using hidle
  have hbounds : start.statements ≤ stop.statements ∧ stop.statements ≤ t.statementCount := by
    by_contra hno
    rw [checkSpan, if_neg hno] at hspan
    cases hspan
  have hmem : ∀ st ∈ t.range start stop, st ∈ t.log := fun st hst =>
    List.mem_of_mem_take (List.mem_of_mem_drop hst)
  obtain ⟨es, hlog, hes⟩ := exists_logged fun st hst =>
    ht.sound.exists_records hp (hmem st hst) (hrange st hst)
  have hserved : ∀ e ∈ es, e.Served kernels token := fun e _ => e.served hk
  -- No primals are kept, so the sweeps are those of the events, whatever values they carry.
  refine ⟨tangentMap es, adjointMap es, fun x hx => ?_, fun y hy => ?_, fun x y hx hy => ?_⟩
  · have hsweep := (t.withAdjoints x).tangentSweep_yields hserved hbounds hlent
      (q := fun _ => 0) (by simp [withAdjoints, hnone]) rfl hlog
      fun _ _ _ hprimals => absurd (hp.symm.trans hprimals) (by simp)
    refine hsweep.mono fun s hs => ?_
    have hopening : ((t.withAdjoints x).opening start stop).slot = x.slot := slot_opening ..
    rw [hs.adjoints_eq, slot_tangent hes (by rw [hopening, hx]), hopening]
  · have hsweep := (t.withAdjoints y).adjointSweep_yields hserved hbounds hlent
      (q := fun _ => 0) (by simp [withAdjoints, hnone]) rfl hlog
      (fun hb => by simp [traits, Traits.rollsBack, withAdjoints, hasPrimals, Vectors.hasPrimals,
        hnone] at hb)
      fun _ _ _ hprimals => absurd (hp.symm.trans hprimals) (by simp)
    refine hsweep.mono fun s hs => ?_
    have hopening : ((t.withAdjoints y).opening start stop).slot = y.slot := slot_opening ..
    rw [hs.adjoints_eq, slot_adjoint hes (by rw [hopening, hy]), hopening]
  · exact finsum_tangentMap_mul hes hx hy

section Aliased

def twoInputs : Tape Int := { Tape.new .reuse .jacobian with issuer := ⟨.reuse, 2, []⟩ }

def timesInputs : List (Variable Int) × Tape Int :=
  (Product.multiply twoInputs (fun _ => some Product.kernel) ⟨0⟩ .byRow 1 1 1 [⟨2, 1⟩] [⟨3, 2⟩]
    [.constant 0]).toOption.getD ([], twoInputs)

def aliased : Tape Int :=
  ((timesInputs.2.assign ⟨2, 1⟩ 5 [(1, 7), (3, 4)]).toOption.map Prod.snd).getD twoInputs

def aliasedCalls : List (Option (Product.Call Int)) :=
  [some ⟨.byRow, 1, 1, 1, [⟨2, 1⟩], [⟨3, 2⟩], [3]⟩]

theorem aliased_reached : aliased.Reached ⟨0⟩ aliasedCalls := by
  have hfirst : Reached ⟨0⟩
      ({ Tape.new .reuse .jacobian with issuer := ⟨.reuse, 1, []⟩ } : Tape Int) [] :=
    Reached.input (y := .constant 2) (.new .reuse .jacobian) rfl
  have hinputs : twoInputs.Reached ⟨0⟩ [] := Reached.input (y := .constant 3) hfirst rfl
  have hproduct : timesInputs.2.Reached ⟨0⟩ aliasedCalls := by
    have hmultiply : Product.multiply twoInputs (fun _ => some Product.kernel) ⟨0⟩ .byRow 1 1 1
        [⟨2, 1⟩] [⟨3, 2⟩] [.constant 0] = .ok timesInputs := rfl
    exact hinputs.multiply hmultiply
  have hassign : timesInputs.2.assign ⟨2, 1⟩ 5 [(1, 7), (3, 4)] = .ok (⟨5, 1⟩, aliased) := rfl
  exact hproduct.assign hassign

theorem aliased_isDifferential :
    ∀ st ∈ aliased.range .zero aliased.position, IsDifferential aliasedCalls st := by
  have hlog : aliased.range .zero aliased.position =
      [⟨0, .external 0, [], none⟩, ⟨1, .elementary, [(1, 7), (3, 4)], none⟩] := rfl
  rw [hlog]
  intro st hst
  rcases List.mem_cons.mp hst with rfl | hst
  · exact .inr ⟨0, _, rfl, rfl, List.pairwise_singleton ..⟩
  · obtain rfl := List.mem_singleton.mp hst
    exact .inl rfl

theorem sweeps_transpose_aliased :
    ∃ forward reverse : (Identifier → Int) →ₗ[Int] (Identifier → Int),
      (∀ x : Slots Int, x.slot passive = 0 →
        Yields ((aliased.withAdjoints x).tangentSweep (fun _ => some Product.kernel) .zero
          aliased.position) fun s => s.tape.vectors.adjoints.slot = forward x.slot) ∧
      (∀ y : Slots Int, y.slot passive = 0 →
        Yields ((aliased.withAdjoints y).adjointSweep (fun _ => some Product.kernel) .zero
          aliased.position) fun s => s.tape.vectors.adjoints.slot = reverse y.slot) ∧
      ∀ x y : Slots Int, x.slot passive = 0 → y.slot passive = 0 →
        ∑ᶠ id, forward x.slot id * y.slot id = ∑ᶠ id, x.slot id * reverse y.slot id :=
  sweeps_transpose aliased_reached rfl rfl rfl .zero aliased.position rfl aliased_isDifferential

end Aliased

end Tape

end Autodiff
