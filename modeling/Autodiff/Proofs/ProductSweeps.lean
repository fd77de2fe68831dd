import Autodiff.Proofs.Blindness
import Autodiff.Proofs.Rewinding
import Autodiff.Proofs.Usage

namespace Autodiff

variable {F : Type} [Scalar F]

section Records

variable [LawfulCells F] {kernels : Kernels F} {t : Tape F} {record : Record F}

theorem Kernel.Rewinds.obliges {kernel : Kernel F} {s : Schema F} (h : kernel.Rewinds s)
    (hblind : kernel.reverse.Blind) (hk : kernels record.token = some kernel) {a : s.Record}
    (hfit : s.Fits a) (hidle : t.pool.lent = 0) (hf : record.fixed = s.fixedCells a)
    (hd : record.dynamic = s.dynamicCells t.traits a) : record.Obliges kernels t := by
  refine ⟨kernel, hk, hblind, fun r hr hlent _ => ?_⟩
  have hfixed : r.fixed.At (s.fixedCells a) := by
    rw [hr.fixed_eq, ← hf]
    exact Reader.at_new _ _
  have hdynamic : r.dynamic.At (s.dynamicCells r.traits a) := by
    rw [hr.dynamic_eq, hr.traits_eq, ← hd]
    exact Reader.at_new _ _
  refine (h.reverse_ensures hfit (hlent.trans hidle) hfixed hdynamic).mono ?_
  rintro _ r' ⟨hprimals, hreturned⟩
  refine ⟨hreturned.trans (hlent.trans hidle).symm, fun hlinear => ?_⟩
  have hrolls : r.traits.rollsBack = false := by
    rw [hr.traits_eq, Traits.rollsBack, hlinear]
    simp
  rw [hrolls] at hprimals
  exact hprimals

theorem Record.Stores.obliges {token : Token} {c : Product.Call F} {olds : List F}
    (h : record.Stores t.traits token c olds) (hk : kernels token = some Product.kernel)
    (hidle : t.pool.lent = 0) : record.Obliges kernels t := by
  obtain ⟨activity, a, b, y, hstaged, hf, hd⟩ := h.staged
  have hkernel : kernels record.token = some Product.kernel := by rw [h.token_eq, hk]
  exact Product.kernel_rewinds.obliges Product.kernel_blind hkernel
    (hstaged.fits h.fits h.length_olds) hidle hf hd

end Records

theorem History.Logged.record_lt {traits : Traits} {token : Token} {records : List (Record F)}
    {log : List (Statement F)} {es : History F} (h : Logged traits token records log es)
    {st : Statement F} (hst : st ∈ log) {k : Nat} (hk : st.kind = .external k) :
    k < records.length := by
  induction h with
  | nil => cases hst
  | skip _ _ ih => exact ih hst
  | append _ hrecords ih =>
    rcases List.mem_append.mp hst with hst | hst
    · exact ih hst
    · obtain rfl := List.mem_singleton.mp hst
      cases hrecords with
      | elementary => cases hk
      | input => cases hk
      | product hr =>
        cases hk
        exact (List.getElem?_eq_some_iff.mp hr).1

theorem Recording.adjointSweep_steady [LawfulCells F] {n : Nat} {c : Catalogue F}
    (hk : c.kernels (c.token .product) = some Product.kernel) {policy : Policy} {kind : TapeKind}
    {values : Fin n → F} {program : List (Instruction F n)} {r : Recording F}
    (hr : (fresh policy kind values).run c (program.map Instruction.operation) = .ok r)
    {start stop : Position}
    (hspan : start.statements ≤ stop.statements ∧ stop.statements ≤ r.tape.statementCount) :
    Yields (r.tape.adjointSweep c.kernels start stop) fun s =>
      Tape.Steady c.kernels start stop r.tape s.tape := by
  obtain ⟨σ, -, -, -, r', hr', htracks⟩ :=
    fresh_run c policy kind values program fun i _ => i.served hk
  obtain rfl : r' = r := Except.ok.inj (hr'.symm.trans hr)
  have hgrows := run_grows hr
  obtain ⟨added, hadded, hstores⟩ := hgrows.records
  have hfinds : r'.tape.FindsAll start stop :=
    fun st hst k hkind => htracks.follows.logged.record_lt (Tape.mem_of_mem_range hst) hkind
  have hobliges : ∀ record ∈ r'.tape.records, record.Obliges c.kernels r'.tape := by
    intro record hrecord
    rw [hadded] at hrecord
    obtain ⟨call, olds, hcall⟩ := hstores record hrecord
    rw [← hgrows.traits_eq] at hcall
    exact hcall.obliges hk htracks.follows.lent_eq
  have hgrounded := (run_records hr).leads.grounded (Tape.grounded_new policy kind)
  exact Tape.adjointSweep_steady hgrounded hfinds hobliges hspan

end Autodiff
