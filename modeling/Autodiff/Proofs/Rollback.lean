import Autodiff.Proofs.Moves
import Autodiff.Proofs.Splitting

namespace Autodiff

variable {F : Type} [Scalar F] {n : Nat}

namespace Retraces

variable {kernels : Kernels F} {traits : Traits} {records : List (Record F)}
  {p q : Identifier → F} {log : List (Statement F)}

theorem mono (h : Retraces kernels traits records p log q) {records' : List (Record F)}
    (hrecords : records <+: records') : Retraces kernels traits records' p log q := by
  induction h with
  | nil => exact .nil
  | snoc _ hst ih => exact ih.snoc (hst.mono hrecords)

theorem drop (h : Retraces kernels traits records p log q) (k : Nat) :
    ∃ p', Retraces kernels traits records p' (log.drop k) q := by
  induction h with
  | nil => exact ⟨p, by rw [List.drop_nil]; exact .nil⟩
  | @snoc log st q r schema _ hst ih =>
    by_cases hk : k ≤ log.length
    · obtain ⟨p', hp'⟩ := ih
      rw [List.drop_append_of_le_length hk]
      exact ⟨p', hp'.snoc hst⟩
    · rw [List.drop_eq_nil_of_le (by simp; omega)]
      exact ⟨r, .nil⟩

end Retraces

namespace Tape

variable {kernels : Kernels F} {t base : Tape F} {σ : Ledger F n} {v : Slots F}
  {p q : Identifier → F} {start : Position}

theorem Rolling.withAdjoints_carries (h : t.Rolling σ q) (x : Slots F) :
    (t.withAdjoints x).Carries t x q :=
  ⟨rfl, rfl, rfl, rfl, rfl, h.lent_eq, rfl, h.primals_eq⟩

theorem Rolling.primal_eq (h : t.Rolling σ q) : t.vectors.primal = q :=
  Vectors.primal_eq (Traits.hasPrimals_of_rollsBack h.rollsBack) h.primals_eq h.passive_eq

end Tape

namespace Recording

section Runs

variable [LawfulCells F] {c : Catalogue F} {r r' : Recording F} {σ : Ledger F n}
  {q : Identifier → F} {program : List (Move F n)}

omit [LawfulCells F] in
theorem record_append (r : Recording F) (program later : List (Move F n)) :
    r.record c (program ++ later) = r.record c program >>= fun r' => r'.record c later :=
  List.foldlM_append

omit [LawfulCells F] in
theorem record_singleton {m : Move F n} {x : Note F × Recording F} (h : r.move c m = .ok x) :
    r.record c [m] = .ok x.2 := by
  change (r.move c m >>= fun x => pure x.2) >>= (fun r => pure r) = _
  rw [h]
  rfl

theorem Rolling.record (h : r.Rolling σ q) (hserved : ∀ m ∈ program, m.Served c) :
    Yields (r.record c program) fun r' => ∃ (σ' : Ledger F n) (q' : Identifier → F)
      (later : List (Statement F)), r'.Rolling σ' q' ∧ r'.tape.traits = r.tape.traits ∧
      r.tape.records <+: r'.tape.records ∧ r'.tape.log = r.tape.log ++ later ∧
      Retraces c.kernels r.tape.traits r'.tape.records q later q' := by
  induction program using List.reverseRecOn with
  | nil => exact .ok ⟨σ, q, [], h, rfl, List.prefix_rfl, (List.append_nil _).symm, .nil⟩
  | append_singleton program m ih =>
    rw [record_append]
    refine (ih fun m hm => hserved m (List.mem_append_left _ hm)).bind ?_
    rintro r₀ ⟨σ₀, q₀, later, h₀, htraits, hrecords, hlog, hretraces⟩
    obtain ⟨x, hx, σ', q', hr', hextends⟩ := h₀.move (hserved m (by simp))
    refine ⟨x.2, record_singleton hx, σ', q', ?_⟩
    have hretraces' := hretraces.mono hextends.records
    rcases hextends.log with ⟨hsame, rfl⟩ | ⟨st, hnew, hst⟩
    · exact ⟨later, hr', hextends.traits_eq.trans htraits, hrecords.trans hextends.records,
        hsame.trans hlog, hretraces'⟩
    · rw [htraits] at hst
      refine ⟨later ++ [st], hr', hextends.traits_eq.trans htraits,
        hrecords.trans hextends.records, ?_, hretraces'.snoc hst⟩
      rw [hnew, hlog, List.append_assoc]

end Runs

end Recording

end Autodiff
