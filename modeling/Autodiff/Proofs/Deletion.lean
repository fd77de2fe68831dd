import Autodiff.Proofs.ProductReplay
import Autodiff.Proofs.History
import Autodiff.Tape.Rewind

namespace Autodiff

variable {F : Type} [Scalar F]

namespace Schema

theorem delete_ensures [LawfulCells F] {s : Schema F} {a : s.Record} {r : Replay F}
    (hfit : s.Fits a) (hidle : r.pool.lent = 0) (hf : r.fixed.At (s.fixedCells a))
    (hd : r.dynamic.At (s.dynamicCells r.traits a)) :
    (s.delete pure).Ensures r fun _ r' => r'.Stands r [] [] 0 := by
  have h : r.Stands r (s.fixedCells a ++ []) (s.dynamicCells r.traits a ++ []) 0 :=
    ⟨rfl, rfl, rfl, by simpa using hf, by simpa using hd, hidle⟩
  rw [delete]
  refine Program.Ensures.bind (Q := fun traits r' => traits = r.traits ∧ r' = r)
    (Program.ensures_act (.ok ⟨rfl, rfl⟩)) fun traits r₀ hr => ?_
  obtain ⟨rfl, rfl⟩ := hr
  refine (restore_ensures _ s a hfit h).bind fun a₁ r₁ h₁ => ?_
  refine (Program.finishBoth_ensures h₁.2).bind fun _ r₂ h₂ => ?_
  refine (Program.ensures_pure (Q := fun b r' => b = a₁ ∧ r' = r₂) ⟨rfl, rfl⟩).bind fun b r₃ h₃ => ?_
  obtain ⟨rfl, rfl⟩ := h₃
  rw [← h₁.1.length_arrays] at h₂
  exact Program.reclaimAll_ensures (s.arrays b) h₂

end Schema

namespace Tape

variable [LawfulCells F] {kernels : Kernels F} {token : Token}

theorem deleteRecord_yields (hk : kernels token = some Product.kernel) {s : Traced F}
    {record : Record F} {c : Product.Call F} {olds : List F} (hl : s.tape.pool.lent = 0)
    (h : record.Stores s.tape.traits token c olds) :
    Yields (deleteRecord kernels s record) fun s' =>
      ∃ pool : Pool F, pool.lent = 0 ∧ s'.tape = { s.tape with pool := pool } := by
  obtain ⟨activity, a, b, y, hstaged, hf, hd⟩ := h.staged
  have hdelete : Product.kernel.delete.Ensures (s.tape.replayOf record .none s.notes) fun _ r' =>
      r'.Stands (s.tape.replayOf record .none s.notes) [] [] 0 :=
    Schema.delete_ensures (hstaged.fits h.fits h.length_olds) hl
      (by rw [← hf]; exact Reader.at_new _ _) (by exact hd ▸ Reader.at_new _ _)
  obtain ⟨⟨_, r⟩, hrun, hstands⟩ := hdelete
  refine ⟨⟨{ s.tape with pool := r.pool }, r.notes⟩, ?_, r.pool, hstands.lent_eq, rfl⟩
  simp only [deleteRecord, Kernels.find, h.token_eq, hk, Traced.attempt]
  change (Product.kernel.delete.run _ >>= _) = _
  rw [hrun]
  rfl

theorem deleteAll_yields (hk : kernels token = some Product.kernel) {s : Traced F}
    {rs : List (Record F)} (hl : s.tape.pool.lent = 0)
    (h : ∀ record ∈ rs, ∃ (c : Product.Call F) (olds : List F),
      record.Stores s.tape.traits token c olds) :
    Yields (rs.foldlM (deleteRecord kernels) s) fun s' =>
      ∃ pool : Pool F, pool.lent = 0 ∧ s'.tape = { s.tape with pool := pool } := by
  induction rs generalizing s with
  | nil => exact .ok ⟨s.tape.pool, hl, rfl⟩
  | cons record rs ih =>
    rw [List.foldlM_cons]
    obtain ⟨c, olds, hstores⟩ := h record (by simp)
    refine (deleteRecord_yields hk hl hstores).bind ?_
    rintro s₁ ⟨pool, hpool, hs₁⟩
    have hrest := ih (s := s₁) (by rw [hs₁]; exact hpool) fun record' hrecord' => by
      rw [hs₁]
      exact h record' (List.mem_cons_of_mem _ hrecord')
    rw [hs₁] at hrest
    exact hrest

theorem backTo_yields (hk : kernels token = some Product.kernel) {t : Tape F} {p : Position}
    {m : Issuer} (hl : t.pool.lent = 0) (hlog : p.statements ≤ t.statementCount)
    (hrecords : p.externals ≤ t.records.length) (hm : t.issuer.rewind p.largest = .ok m)
    (h : ∀ record ∈ t.records.drop p.externals, ∃ (c : Product.Call F) (olds : List F),
      record.Stores t.traits token c olds) :
    Yields (t.backTo kernels p) fun s => ∃ pool : Pool F, pool.lent = 0 ∧
      s.tape = { t with
        issuer := m
        log := t.log.take p.statements
        pending := []
        records := t.records.take p.externals
        pool := pool } := by
  obtain ⟨s, hs, pool, hpool, htape⟩ :=
    deleteAll_yields (s := ⟨t, []⟩) hk hl
      fun record hrecord => h record (List.mem_reverse.mp hrecord)
  rw [backTo, if_pos ⟨hlog, hrecords⟩, deleteRecords, hs, hm]
  refine .ok ⟨pool, hpool, ?_⟩
  simp only [Traced.mapTape, htape]

end Tape

end Autodiff
