import Autodiff.Proofs.ProductRecording
import Autodiff.Proofs.SweepFrames
/-!
The tapes that public operations lead to. Whatever handles and callbacks they are given, the scalar
statements of such a tape have active outputs and arguments, and the record of a matrix product is
the one that the product wrote.
-/

namespace Autodiff

variable {F : Type} [Scalar F]

namespace Tape

open Product

/-- The tapes that public operations lead to, each with the matrix products behind its records. -/
inductive Reached (token : Token) : Tape F → List (Option (Call F)) → Prop
  | new (policy : Policy) (kind : TapeKind) : Reached token (.new policy kind) []
  | issue {t calls} (h : Reached token t calls) : Reached token t.issue.2 calls
  | retire {t calls id t'} (h : Reached token t calls) (hr : t.retire id = .ok t') :
      Reached token t' calls
  | addArgument {t calls} (h : Reached token t calls) (id : Identifier) (weight : F) :
      Reached token (t.addArgument id weight) calls
  | closeStatement {t calls} (h : Reached token t calls) (lhs : Identifier) (value : F) :
      Reached token (t.closeStatement lhs value).2 calls
  | assign {t calls lhs value args x} (h : Reached token t calls)
      (hr : t.assign lhs value args = .ok x) : Reached token x.2 calls
  | input {t calls y x} (h : Reached token t calls) (hr : t.input y = .ok x) :
      Reached token x.2 calls
  | output {t calls y x} (h : Reached token t calls) (hr : t.output y = .ok x) :
      Reached token x.2 calls
  | freshOutput {t calls y old y' t'} (h : Reached token t calls)
      (hr : t.freshOutput y = .ok (old, y', t')) : Reached token t' calls
  | addRecord {t calls} {α : Type} {kernels : Kernels F} {other m n fill} {x : α × Tape F}
      (h : Reached token t calls) (hr : t.addRecord kernels other m n fill = .ok x) :
      Reached token x.2 (calls ++ [none])
  | multiply {t calls} {kernels : Kernels F} {s n k m a b r ys t'} (h : Reached token t calls)
      (hr : Product.multiply t kernels token s n k m a b r = .ok (ys, t')) :
      Reached token t' (if a.any Variable.isActive || b.any Variable.isActive then
        calls ++ [some ⟨s, n, k, m, a, b, ys.map Variable.identifier⟩] else calls)
  | seed {t calls} (h : Reached token t calls) (v : Slots F) :
      Reached token (t.withAdjoints v) calls
  | resizePrimals {t calls} (h : Reached token t calls) (n : Nat) :
      Reached token (t.withPrimals (t.vectors.primals.map (·.resize n))) calls
  | stage {t calls} (h : Reached token t calls) (pool : Pool F) :
      Reached token { t with pool := pool } calls
  | tangentSweep {t calls start stop s} {kernels : Kernels F} (h : Reached token t calls)
      (hr : t.tangentSweep kernels start stop = .ok s) : Reached token s.tape calls
  | adjointSweep {t calls start stop s} {kernels : Kernels F} (h : Reached token t calls)
      (hr : t.adjointSweep kernels start stop = .ok s) : Reached token s.tape calls
  | backTo {t calls p s} {kernels : Kernels F} (h : Reached token t calls)
      (hr : t.backTo kernels p = .ok s) : Reached token s.tape (calls.take p.externals)

structure Sound (token : Token) (t : Tape F) (calls : List (Option (Call F))) : Prop where
  unused_ne : passive ∉ t.issuer.unused
  pending_ne : ∀ a ∈ t.pending, a.1 ≠ passive
  elementary_ne : ∀ st ∈ t.log, st.kind = .elementary →
    st.output ≠ passive ∧ ∀ a ∈ st.arguments, a.1 ≠ passive
  length_calls : calls.length = t.records.length
  stores : ∀ (k : Nat) (c : Call F), calls[k]? = some (some c) →
    ∃ (record : Record F) (olds : List F), t.records[k]? = some record ∧
      record.Stores t.traits token c olds

namespace Sound

variable {token : Token} {t t' : Tape F} {calls : List (Option (Call F))}

theorem of_sameLog (h : t.Sound token calls) (hs : t.SameLog t') : t'.Sound token calls := by
  refine ⟨hs.unused_ne h.unused_ne, ?_, ?_, ?_, ?_⟩
  · rw [hs.pending_eq]
    exact h.pending_ne
  · rw [hs.log_eq]
    exact h.elementary_ne
  · rw [hs.records_eq]
    exact h.length_calls
  · rw [hs.records_eq, hs.traits_eq]
    exact h.stores

theorem of_sameRecording (h : t.Sound token calls) (hs : t.SameRecording t') :
    t'.Sound token calls := by
  refine ⟨?_, ?_, ?_, ?_, ?_⟩
  · rw [hs.issuer_eq]
    exact h.unused_ne
  · rw [hs.pending_eq]
    exact h.pending_ne
  · rw [hs.log_eq]
    exact h.elementary_ne
  · rw [hs.records_eq]
    exact h.length_calls
  · rw [hs.records_eq, hs.traits_eq]
    exact h.stores

theorem withIssuer (h : t.Sound token calls) {m : Issuer} (hp : m.policy = t.issuer.policy)
    (hu : passive ∉ m.unused) : Sound token { t with issuer := m } calls :=
  h.of_sameLog ⟨rfl, rfl, rfl, rfl, rfl, hp, fun _ => hu⟩

theorem stage (h : t.Sound token calls) (pool : Pool F) :
    Sound token { t with pool := pool } calls :=
  h.of_sameRecording ⟨rfl, rfl, rfl, rfl, rfl⟩

theorem addArgument (h : t.Sound token calls) (id : Identifier) (weight : F) :
    (t.addArgument id weight).Sound token calls := by
  rw [Tape.addArgument]
  split
  · exact h
  · rename_i hid
    refine ⟨h.unused_ne, fun a ha => ?_, h.elementary_ne, h.length_calls, h.stores⟩
    rcases List.mem_append.mp ha with ha | ha
    · exact h.pending_ne a ha
    · rw [List.mem_singleton.mp ha]
      exact hid

theorem addArguments (h : t.Sound token calls) (args : List (Identifier × F)) :
    (t.addArguments args).Sound token calls := by
  induction args generalizing t with
  | nil => exact h
  | cons arg args ih => exact ih (h.addArgument arg.1 arg.2)

theorem append (h : t.Sound token calls) (id : Identifier) (kind : StatementKind) (value : F)
    (hid : kind = .elementary → id ≠ passive) : (t.append id kind value).Sound token calls := by
  have hp : (t.append id kind value).hasPrimals = t.hasPrimals :=
    Vectors.hasPrimals_setPrimal ..
  have htraits : (t.append id kind value).traits = t.traits := by
    rw [traits, traits, hp]
    rfl
  refine ⟨h.unused_ne, fun a ha => absurd ha List.not_mem_nil, fun st hst hk => ?_,
    h.length_calls, ?_⟩
  · rcases List.mem_append.mp hst with hst | hst
    · exact h.elementary_ne st hst hk
    · obtain rfl := List.mem_singleton.mp hst
      exact ⟨hid hk, h.pending_ne⟩
  · rw [htraits]
    exact h.stores

theorem closeStatement (h : t.Sound token calls) (lhs : Identifier) (value : F) :
    (t.closeStatement lhs value).2.Sound token calls := by
  obtain ⟨hid, hu⟩ := Issuer.ne_of_settle h.unused_ne lhs
  exact (h.withIssuer (Issuer.policy_settle ..) hu).append _ _ _ fun _ => hid

theorem retire (h : t.Sound token calls) {id : Identifier} (hr : t.retire id = .ok t') :
    t'.Sound token calls := by
  obtain ⟨m, hm, hr⟩ := exists_of_bind_eq_ok hr
  cases hr
  exact h.withIssuer (Issuer.policy_retire hm) (Issuer.ne_of_retire h.unused_ne hm)

theorem withRecord (h : t.Sound token calls) (record : Record F) (call : Option (Call F))
    (hc : ∀ c, call = some c → ∃ olds, record.Stores t.traits token c olds) :
    (t.withRecord record).Sound token (calls ++ [call]) := by
  have hrecords : Sound token { t with records := t.records ++ [record] } (calls ++ [call]) := by
    refine ⟨h.unused_ne, h.pending_ne, h.elementary_ne, by simp [h.length_calls],
      fun k c hk => ?_⟩
    -- Records that were there keep their places.
    by_cases hlt : k < calls.length
    · rw [List.getElem?_append_left hlt] at hk
      obtain ⟨stored, olds, hr, hs⟩ := h.stores k c hk
      refine ⟨stored, olds, ?_, hs⟩
      rw [List.getElem?_append_left (h.length_calls ▸ hlt)]
      exact hr
    · rw [List.getElem?_append_right (not_lt.mp hlt)] at hk
      have hzero : k - calls.length = 0 := by
        by_contra hne
        rw [List.getElem?_eq_none (by simp; omega)] at hk
        cases hk
      rw [hzero] at hk
      obtain ⟨olds, hs⟩ := hc c (Option.some.inj hk)
      refine ⟨record, olds, ?_, hs⟩
      rw [List.getElem?_append_right (h.length_calls ▸ not_lt.mp hlt), ← h.length_calls, hzero]
      rfl
  exact hrecords.append _ _ _ nofun

theorem backTo {p : Position} (h : t.Sound token calls) (hk : t.KeepsUpTo t' p) :
    t'.Sound token (calls.take p.externals) := by
  obtain ⟨hpolicy, hunused⟩ := Issuer.policy_rewind hk.issuer_rewind
  have htraits : t'.traits = t.traits := by rw [traits, traits, hk.hasPrimals_eq, hpolicy]
  refine ⟨?_, ?_, fun st hst => ?_, ?_, fun k c hc => ?_⟩
  · rw [hunused]
    exact h.unused_ne
  · rw [hk.pending_eq]
    exact fun a ha => absurd ha List.not_mem_nil
  · rw [hk.log_eq] at hst
    exact h.elementary_ne st (List.mem_of_mem_take hst)
  · rw [hk.records_eq, List.length_take, List.length_take, h.length_calls]
  · rw [hk.records_eq, htraits]
    rw [List.getElem?_take] at hc ⊢
    split at hc
    · rename_i hlt
      rw [if_pos hlt]
      exact h.stores k c hc
    · cases hc

end Sound

theorem Reached.sound [LawfulCells F] {token : Token} {t : Tape F} {calls : List (Option (Call F))}
    (h : t.Reached token calls) : t.Sound token calls := by
  induction h with
  | new policy kind => exact ⟨List.not_mem_nil, nofun, nofun, rfl, nofun⟩
  | issue _ ih => exact ih.withIssuer (Issuer.policy_issue _) (Issuer.ne_of_issue ih.unused_ne).2
  | retire _ hr ih => exact ih.retire hr
  | addArgument _ id weight ih => exact ih.addArgument id weight
  | closeStatement _ lhs value ih => exact ih.closeStatement lhs value
  | assign _ hr ih =>
    unfold Tape.assign at hr
    split at hr
    · obtain ⟨t₁, h₁, hr⟩ := exists_of_bind_eq_ok hr
      cases hr
      exact ih.retire h₁
    · cases hr
      exact (ih.addArguments _).closeStatement _ _
  | @input t calls y x _ hr ih =>
    obtain ⟨⟨id, m⟩, hm, hr⟩ := exists_of_bind_eq_ok hr
    cases hr
    have hissued := ih.withIssuer (Issuer.policy_exchange hm)
      (Issuer.ne_of_exchange ih.unused_ne hm).2
    simp only
    split
    · exact hissued.append _ _ _ nofun
    · exact hissued.of_sameRecording ⟨rfl, rfl, rfl, rfl, Vectors.hasPrimals_map ..⟩
  | output _ hr ih =>
    unfold Tape.output at hr
    split at hr
    · cases hr
      exact ih
    · obtain ⟨t₁, h₁, hr⟩ := exists_of_bind_eq_ok hr
      cases hr
      exact ((ih.addArgument _ _).closeStatement _ _).retire h₁
  | freshOutput _ hr ih => exact ih.of_sameLog (freshOutput_sameLog hr)
  | addRecord _ hr ih =>
    obtain ⟨_, -, hr⟩ := exists_of_bind_eq_ok hr
    obtain ⟨⟨y, fixed, dynamic⟩, -, hr⟩ := exists_of_bind_eq_ok hr
    cases hr
    exact ih.withRecord _ none nofun
  | @multiply t calls kernels s n k m a b r ys t' _ hr ih =>
    rcases of_multiply_eq_ok hr with ⟨hpassive, hsame⟩ | ⟨hactive, hplaced⟩
    · rw [hpassive]
      exact ih.of_sameLog hsame
    · -- Which identifiers the results got plays no part: the record holds them as they are.
      obtain ⟨t₁, record, pool, pool', olds, hsame, hstores, -, rfl⟩ := hplaced
      rw [hactive, if_pos rfl]
      have hplaced := (ih.stage pool).of_sameLog hsame
      refine (hplaced.withRecord record _ fun c hc => ?_).stage pool'
      obtain rfl := Option.some.inj hc
      exact ⟨olds, hstores⟩
  | seed _ v ih => exact ih.of_sameRecording ⟨rfl, rfl, rfl, rfl, rfl⟩
  | resizePrimals _ n ih =>
    exact ih.of_sameRecording ⟨rfl, rfl, rfl, rfl, Vectors.hasPrimals_map ..⟩
  | stage _ pool ih => exact ih.stage pool
  | tangentSweep _ hr ih => exact ih.of_sameRecording (tangentSweep_sameRecording hr)
  | adjointSweep _ hr ih => exact ih.of_sameRecording (adjointSweep_sameRecording hr)
  | backTo _ hr ih => exact ih.backTo (backTo_keepsUpTo hr)

end Tape

end Autodiff
