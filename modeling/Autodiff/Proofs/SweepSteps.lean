import Autodiff.Proofs.Flattening
import Autodiff.Proofs.History

namespace Autodiff

variable {F : Type} [Scalar F]

theorem slot_set_eq (v : Slots F) {id : Identifier} (x : F) (hid : id ≠ passive) :
    (v.set id x).slot = overwrite v.slot [(id, x)] := by
  rw [← Slots.slot_scatter]
  simp [Slots.scatter, hid]

namespace Product.Call

variable {c : Call F}

theorem length_values (c : Call F) : c.values.length = c.rows * c.cols :=
  Matrix.length_flatten ..

theorem Fits.map_fst_zip (h : c.Fits) : (c.results.zip c.values).map Prod.fst = c.results :=
  List.map_fst_zip (by rw [h.results, length_values])

theorem Fits.undo_eq (h : c.Fits) (p q : Identifier → F) :
    (Event.product c).undo p q = overwrite q (c.results.zip (c.results.map p)) := by
  have hmap : (c.results.zip c.values).map (fun w => (w.1, p w.1)) =
      ((c.results.zip c.values).map Prod.fst).map fun id => (id, p id) := by
    rw [List.map_map]
    rfl
  rw [Event.undo, Event.writes, hmap, h.map_fst_zip]
  congr 1
  induction c.results with
  | nil => rfl
  | cons id ids ih => simp [ih]

end Product.Call

namespace Traced

open Product

variable {kernels : Kernels F} {token : Token} {s : Traced F} {st : Statement F} {e : Event F}
  {base : Tape F} {v : Slots F} {p q : Identifier → F}

theorem replay_of_run {callback : Kernel F → Program F Unit} {kernel : Kernel F} {k : Nat}
    {record : Record F} {x : Unit × Replay F} (hr : s.tape.records[k]? = some record)
    (hk : kernels record.token = some kernel)
    (h : (callback kernel).run (s.tape.replayOf record s.tape.vectors s.notes) = .ok x) :
    s.replay kernels callback k =
      .ok ⟨{ s.tape with vectors := x.2.vectors, pool := x.2.pool }, x.2.notes⟩ := by
  simp only [replay, hr, Kernels.find, hk, attempt]
  change ((callback kernel).run _ >>= _) = _
  rw [h]
  rfl

theorem replay_yields {callback : Kernel F → Program F Unit} {kernel : Kernel F} {k : Nat}
    {record : Record F} {u : Vectors F} (hr : s.tape.records[k]? = some record)
    (hk : kernels record.token = some kernel)
    (h : (callback kernel).Ensures (s.tape.replayOf record s.tape.vectors s.notes) fun _ r' =>
      r'.Stands ((s.tape.replayOf record s.tape.vectors s.notes).withVectors u) [] [] 0) :
    Yields (s.replay kernels callback k) fun s' => ∃ pool : Pool F, pool.lent = 0 ∧
      s'.tape = { s.tape with vectors := u, pool := pool } := by
  obtain ⟨⟨_, r⟩, hrun, hs⟩ := h
  exact ⟨_, replay_of_run hr hk hrun, r.pool, hs.lent_eq, by rw [hs.vectors_eq]; rfl⟩

theorem rewound_carries {c : Call F} {olds : List F} (hs : s.tape.Carries base v q) (hc : c.Fits)
    (ho : base.traits.rollsBack = true → olds = c.results.map p) :
    ({ s.tape with vectors := c.rewound base.traits olds s.tape.vectors } : Tape F).Carries base
      s.tape.vectors.adjoints
      (if base.traits.rollsBack then (Event.product c).undo p q else q) := by
  refine hs.replace _ s.tape.pool hs.lent_eq ?_ ?_ ?_
  · rw [Call.rewound]
    split
    · exact Vectors.hasPrimals_writePrimals ..
    · rfl
  · rw [Call.rewound]
    split <;> rfl
  · by_cases hb : base.traits.rollsBack = true
    · rw [Call.rewound, if_pos hb, if_pos hb, hc.undo_eq, ho hb]
      exact Vectors.slot_writePrimals _ hs.primals_eq
    · rw [Call.rewound, if_neg hb, if_neg hb]
      exact hs.primals_eq

theorem undoPrimal_carries (st : Statement F) (hs : s.tape.Carries base v q) {x : F}
    (ho : base.traits.rollsBack = true → st.overwrite = some ⟨x, p st.output⟩)
    (hid : st.output ≠ passive) :
    (undoPrimal st s.tape).Carries base v
      (if base.traits.rollsBack then overwrite q [(st.output, p st.output)] else q) := by
  rw [undoPrimal, hs.traits_eq]
  by_cases hb : base.traits.rollsBack = true
  · rw [if_pos hb, if_pos hb]
    refine hs.replace _ s.tape.pool hs.lent_eq (Vectors.hasPrimals_map ..) hs.adjoints_eq ?_
    intro p' hp'
    obtain ⟨p₀, hp₀, rfl⟩ := Option.mem_map.mp hp'
    rw [Statement.undo, ho hb]
    exact (slot_set_eq p₀ _ hid).trans (by rw [hs.primals_eq p₀ hp₀])
  · rw [if_neg hb, if_neg hb]
    exact hs

variable [LawfulCells F]

section Product

variable {c : Call F} {record : Record F} {olds : List F} {k : Nat}

section Writes

variable (hk : kernels token = some kernel) (hl : s.tape.pool.lent = 0)
  (hr : s.tape.records[k]? = some record) (hc : record.Stores s.tape.traits token c olds)
include hk hl hr hc

theorem replay_forward_writes
    (hagree : s.tape.hasPrimals = true → c.Agrees s.tape.vectors.primal) :
    Yields (s.replay kernels Kernel.forward k) fun s' => ∃ pool : Pool F, pool.lent = 0 ∧
      s'.tape = { s.tape with
        vectors := (s.tape.vectors.writePrimals (c.results.zip c.values)).withAdjoints
          (c.tangent s.tape.vectors.adjoints)
        pool := pool } := by
  obtain ⟨activity, a, b, y, hstaged, hfixed, hdynamic⟩ := hc.staged
  have hforward := kernel_forward_ensures (c := c)
    (r := s.tape.replayOf record s.tape.vectors s.notes) hstaged hc.fits hc.length_olds hl
    (by rw [← hfixed]; exact Reader.at_new _ _)
    (by rw [Tape.replayOf, ← hdynamic]; exact Reader.at_new _ _)
    rfl hagree
  exact replay_yields hr (by rw [hc.token_eq, hk]) hforward

theorem replay_reverse_writes (hagree : s.tape.hasPrimals = true →
      c.Agrees (c.rewound s.tape.traits olds s.tape.vectors).primal) :
    Yields (s.replay kernels Kernel.reverse k) fun s' => ∃ pool : Pool F, pool.lent = 0 ∧
      s'.tape = { s.tape with
        vectors := (c.rewound s.tape.traits olds s.tape.vectors).withAdjoints
          (c.adjoint s.tape.vectors.adjoints)
        pool := pool } := by
  obtain ⟨activity, a, b, y, hstaged, hfixed, hdynamic⟩ := hc.staged
  have hreverse := kernel_reverse_ensures (c := c)
    (r := s.tape.replayOf record s.tape.vectors s.notes) hstaged hc.fits hc.length_olds hl
    (by rw [← hfixed]; exact Reader.at_new _ _)
    (by rw [Tape.replayOf, ← hdynamic]; exact Reader.at_new _ _)
    hagree
  exact replay_yields hr (by rw [hc.token_eq, hk]) hreverse

end Writes

variable (hk : kernels token = some kernel) (hs : s.tape.Carries base v q)
  (hr : base.records[k]? = some record) (hc : record.Stores base.traits token c olds)
include hk hs hr hc

theorem replay_forward_yields (hagree : base.hasPrimals = true → c.Agrees s.tape.vectors.primal) :
    Yields (s.replay kernels Kernel.forward k) fun s' => s'.tape.Carries base
      ((Event.product c).tangent v) ((Event.product c).redo q) := by
  rw [← hs.records_eq] at hr
  rw [← hs.traits_eq] at hc
  rw [← hs.hasPrimals_eq] at hagree
  refine (replay_forward_writes hk hs.lent_eq hr hc hagree).mono ?_
  rintro s' ⟨pool, hl, hs'⟩
  rw [hs']
  refine hs.replace _ pool hl (Vectors.hasPrimals_writePrimals ..) ?_ ?_
  · rw [← hs.adjoints_eq]
    rfl
  · exact Vectors.slot_writePrimals _ hs.primals_eq

theorem replay_reverse_yields (ho : base.traits.rollsBack = true → olds = c.results.map p)
    (hagree : base.hasPrimals = true →
      c.Agrees (c.rewound base.traits olds s.tape.vectors).primal) :
    Yields (s.replay kernels Kernel.reverse k) fun s' => s'.tape.Carries base
      ((Event.product c).adjoint v)
      (if base.traits.rollsBack then (Event.product c).undo p q else q) := by
  have hrewound := rewound_carries hs hc.fits ho
  rw [← hs.records_eq] at hr
  rw [← hs.traits_eq] at hc
  rw [← hs.hasPrimals_eq, ← hs.traits_eq] at hagree
  refine (replay_reverse_writes hk hs.lent_eq hr hc hagree).mono ?_
  rintro s' ⟨pool, hl, hs'⟩
  rw [hs', hs.traits_eq]
  refine hrewound.replace _ pool hl rfl ?_ hrewound.primals_eq
  rw [← hs.adjoints_eq]
  rfl

end Product

theorem tangentStep_yields (hk : e.Served kernels token)
    (hs : s.tape.Carries base v q) (hq : q passive = 0)
    (hst : st.Records base.traits token base.records p e)
    (hready : base.hasPrimals = true → e.Ready q) :
    Yields (tangentStep kernels s st) fun s' => s'.tape.Carries base (e.tangent v) (e.redo q) := by
  cases hst with
  | @elementary id args value ow hid ho =>
    refine .ok (hs.replace _ s.tape.pool hs.lent_eq (Vectors.hasPrimals_map ..) ?_ ?_)
    · rw [← hs.adjoints_eq]
      rfl
    · intro p' hp'
      obtain ⟨p₀, hp₀, rfl⟩ := Option.mem_map.mp hp'
      have hprimals : base.hasPrimals = true := by
        rw [← hs.hasPrimals_eq, Tape.hasPrimals, Vectors.hasPrimals, Option.mem_def.mp hp₀]
        rfl
      rw [Statement.redo, ho hprimals]
      exact (slot_set_eq p₀ value hid).trans (by rw [hs.primals_eq p₀ hp₀]; rfl)
  | @input id args value ow hid hb ho =>
    refine .ok (hs.replace _ s.tape.pool hs.lent_eq (Vectors.hasPrimals_map ..) hs.adjoints_eq ?_)
    intro p' hp'
    obtain ⟨p₀, hp₀, rfl⟩ := Option.mem_map.mp hp'
    rw [Statement.redo, ho]
    exact (slot_set_eq p₀ value hid).trans (by rw [hs.primals_eq p₀ hp₀]; rfl)
  | product hr hc ho =>
    refine replay_forward_yields hk hs hr hc fun hp => ?_
    rw [hs.primal_eq hp hq]
    exact hready hp

theorem adjointStep_yields (hk : e.Served kernels token)
    (hs : s.tape.Carries base v q) (hq : q passive = 0)
    (hst : st.Records base.traits token base.records p e)
    (hready : base.hasPrimals = true →
      e.Ready (if base.traits.rollsBack then e.undo p q else q)) :
    Yields (adjointStep kernels s st) fun s' =>
      s'.tape.Carries base (e.adjoint v) (if base.traits.rollsBack then e.undo p q else q) := by
  cases hst with
  | @elementary id args value ow hid ho =>
    have hundo := undoPrimal_carries (p := p) (x := value) ⟨id, .elementary, args, ow⟩ hs
      (fun hb => ho (Traits.hasPrimals_of_rollsBack hb)) hid
    refine .ok (hundo.replace _ _ hundo.lent_eq rfl ?_ hundo.primals_eq)
    change Statement.propagate _ _ = _
    rw [hundo.adjoints_eq]
    rfl
  | @input id args value ow hid hb ho =>
    exact .ok (undoPrimal_carries (p := p) (x := value) ⟨id, .input, args, ow⟩ hs
      (fun _ => ho) hid)
  | @product id k args ow record c olds hr hc ho =>
    have hrewound := rewound_carries hs hc.fits ho
    have hzero : (if base.traits.rollsBack then (Event.product c).undo p q else q) passive = 0 := by
      split
      · rw [Event.undo, overwrite_passive, hq]
      · exact hq
    refine replay_reverse_yields hk hs hr hc ho fun hprimals => ?_
    have hprimal := hrewound.primal_eq hprimals hzero
    rw [hprimal]
    exact hready hprimals

end Traced

end Autodiff
