import Autodiff.Proofs.Undoing

namespace Autodiff

variable {F : Type} [Scalar F]

namespace Contents

def calls (c : Contents F) (n : Nat) : List Nat := (c.log.take n).filterMap (·.kind.record?)

theorem Ordered.calls_eq {c : Contents F} (h : c.Ordered) (n : Nat) :
    c.calls n = List.range (c.calls n).length := by
  have hprefix : c.calls n <+: List.range c.records.length := by
    rw [← show _ = _ from h]
    exact (List.take_prefix n c.log).filterMap _
  have htake := List.prefix_iff_eq_take.mp hprefix
  rw [List.take_range, Nat.min_eq_left (by simpa using hprefix.length_le)] at htake
  exact htake

theorem Ordered.cut_iff {c : Contents F} (h : c.Ordered) {p : Position}
    (hp : p.externals ≤ c.records.length) :
    (c.change (.cut p)).Ordered ↔ p.externals = (c.calls p.statements).length := by
  rw [Ordered, change, List.length_take, Nat.min_eq_left hp]
  change c.calls p.statements = _ ↔ _
  constructor
  · intro hcalls
    rw [hcalls, List.length_range]
  · intro hcount
    rw [hcount]
    exact h.calls_eq p.statements

end Contents

namespace Tape

variable {t : Tape F} {p : Position}

def Agrees (t : Tape F) (p : Position) : Prop :=
  p.externals = (t.contents.calls p.statements).length

/-- Either nothing happens at all, or the deletions run and what they leave is a recording in which every
call finds its record. -/
def Honours (t : Tape F) (p : Position) : Prop :=
  (∀ kernels, t.backTo kernels p =
    .error ⟨.fatal (.invalidRange p.statements t.statementCount), []⟩) ∨
  ∃ m, (∀ kernels, t.backTo kernels p =
      Deed.runAll kernels ⟨t, []⟩ ((t.records.drop p.externals).reverse.map .delete) >>= fun d =>
        .ok ⟨t.cutAt p m d.tape.pool, d.notes⟩) ∧
    ∀ pool, (t.cutAt p m pool).contents.Ordered

theorem agrees_zero (t : Tape F) : t.Agrees .zero := rfl

theorem ordered_cutAt_iff (ho : t.contents.Ordered) (h : t.Reaches p) (m : Issuer) (pool : Pool F) :
    (t.cutAt p m pool).contents.Ordered ↔ t.Agrees p := ho.cut_iff h.2

theorem honours_of_agrees (ho : t.contents.Ordered) (hreaches : t.Reaches p) (h : t.Agrees p)
    {m : Issuer} (hm : t.issuer.rewind p.largest = .ok m) : t.Honours p := by
  refine .inr ⟨m, fun kernels => ?_, fun pool => ?_⟩
  · rw [hreaches.backTo_eq, hm]
  · exact (ordered_cutAt_iff ho hreaches m pool).mpr h

end Tape

namespace Shelf

variable {s : Shelf F} {ps : List (Posting F)} {reel : Reel F}

theorem Runs.ordered_of_agrees (h : s.Runs (fun _ t p => t.Agrees p) ps) :
    (∀ reel, some reel ∈ s.reels → reel.tape.contents.Ordered) ∧
      ∀ u ∈ s.marked, u.contents.Ordered := by
  apply h.invariant (P := fun reel => reel.tape.contents.Ordered)
    (M := fun u => u.contents.Ordered) (fun _ _ => Contents.ordered_empty) (fun _ ho => ho)
  intro s reel cs ds t' _ ho ha
  simp only [ha.changes.contents_eq]
  have hpermits := ha.changes.permits
  obtain ⟨hplain, -⟩ | ⟨r, overwrite, rfl, -⟩ | ⟨p, rfl, -, hagrees⟩ := ha.trichotomy
  · exact ho.changes hpermits fun p hp => hplain _ hp
  · exact ho.record r overwrite
  · refine (ho.cut_iff hpermits.1.2).mpr ?_
    rcases hagrees with hagrees | rfl
    · exact hagrees
    · exact reel.tape.agrees_zero

theorem StillPrefix.agrees {t : Tape F} {p : Position} (h : s.StillPrefix t p)
    (hmarked : ∀ u ∈ s.marked, u.contents.Ordered) : t.Agrees p := by
  obtain ⟨u, hu, hlog, hstatements, hexternals⟩ := h.exists_contents hmarked
  have htake : t.log.take u.log.length = u.log := (List.prefix_iff_eq_take.mp hlog).symm
  rw [Tape.Agrees, hstatements, hexternals, Contents.calls, Tape.contents, htake,
    show _ = _ from hu, List.length_range]

/-- A position that counts as many records as the present recording calls before it, and from which the
issuer can go on, is refused at once or honoured. Any other one that the counts admit leaves calls and
records that do not match, or it fails when the deletions have run. -/
theorem Runs.backTo_honours (h : s.Runs (fun _ t p => t.Agrees p) ps)
    (hreel : some reel ∈ s.reels) (p : Position) :
    ((reel.tape.Reaches p →
        reel.tape.Agrees p ∧ ∃ m, reel.tape.issuer.rewind p.largest = .ok m) →
      reel.tape.Honours p) ∧
    (reel.tape.Reaches p → ∀ m pool,
      (reel.tape.cutAt p m pool).contents.Ordered ↔ reel.tape.Agrees p) ∧
    (reel.tape.Reaches p → ∀ fault, reel.tape.issuer.rewind p.largest = .error fault →
      ∀ kernels, reel.tape.backTo kernels p = Deed.runAll kernels ⟨reel.tape, []⟩
        ((reel.tape.records.drop p.externals).reverse.map .delete) >>= fun d =>
          .error ⟨fault, d.notes⟩) ∧
    (s.StillPrefix reel.tape p → reel.tape.Agrees p) := by
  obtain ⟨hordered, hmarked⟩ := h.ordered_of_agrees
  have ho := hordered reel hreel
  refine ⟨fun hp => ?_, fun hreaches m pool => ?_, fun hreaches fault hfault kernels => ?_,
    fun hp => hp.agrees hmarked⟩
  · by_cases hreaches : reel.tape.Reaches p
    · obtain ⟨hagrees, m, hm⟩ := hp hreaches
      exact Tape.honours_of_agrees ho hreaches hagrees hm
    · exact .inl fun kernels => Tape.backTo_eq_error kernels hreaches
  · exact Tape.ordered_cutAt_iff ho hreaches m pool
  · rw [hreaches.backTo_eq, hfault]

theorem Runs.backTo_honours_stale : ∃ (s : Shelf Int) (ps : List (Posting Int)) (reel : Reel Int)
    (u : Tape Int), s.Runs (fun _ t p => t.Agrees p) ps ∧ some reel ∈ s.reels ∧ u ∈ s.marked ∧
      u.position = ⟨2, 1, 1⟩ ∧ reel.tape.statementCount = 3 ∧ reel.tape.Reaches u.position ∧
      reel.tape.Honours u.position := by
  have opened : Runs (F := Int) (fun _ t p => t.Agrees p) _ _ :=
    Runs.empty.create .linear .primalValues
  have closed := opened.act (i := 0) rfl (.closeStatement _ passive 5)
  have marked := (closed.act (i := 0) rfl (.addBlank _ 1 3)).mark (i := 0) rfl
  have cleared := marked.act (i := 0) rfl (.clear (show Tape.clear _ silent = .ok _ from rfl))
  have closed' := cleared.act (i := 0) rfl (.closeStatement _ passive 7)
  have called := closed'.act (i := 0) rfl (.addBlank _ 2 0)
  have again := called.act (i := 0) rfl (.addBlank _ 0 1)
  obtain ⟨hhonours, -⟩ := again.backTo_honours (List.mem_singleton.mpr rfl) ⟨2, 1, 1⟩
  exact ⟨_, _, _, _, again, List.mem_singleton.mpr rfl, List.mem_singleton.mpr rfl, rfl, rfl, ⟨by decide, by decide⟩,
    hhonours fun _ => ⟨rfl, _, rfl⟩⟩

def noting : Kernels Int :=
  fun _ => some ⟨"noting", .pure (), .pure (), .perform (.report (.text "delete")) .pure⟩

/-- The first mark stands after two statements. The reset and two records later, both statements that it
keeps are calls, and both records are deleted. The second mark stands after an input, so that a linear
tape cannot go back to it after the reset; it deletes a record before it fails. -/
theorem not_backTo_honours_stale :
    (∃ (s : Shelf Int) (ps : List (Posting Int)) (reel : Reel Int) (u : Tape Int) (d : Traced Int),
      s.Runs StillPrefix ps ∧ s.reels = [some reel] ∧ u ∈ s.marked ∧
      reel.tape.backTo noting u.position = .ok d ∧ d.notes = [.text "delete", .text "delete"] ∧
      d.tape.log.map Statement.kind = [.external 0, .external 1] ∧ d.tape.records = []) ∧
    ∃ (s : Shelf Int) (ps : List (Posting Int)) (reel : Reel Int) (u : Tape Int),
      s.Runs StillPrefix ps ∧ s.reels = [some reel] ∧ u ∈ s.marked ∧
      reel.tape.backTo noting u.position = .error ⟨.rewindPastLargest, [.text "delete"]⟩ := by
  constructor
  · have opened : Runs (F := Int) StillPrefix _ _ := Runs.empty.create .reuse .jacobian
    have closed := opened.act (i := 0) rfl (.closeStatement _ passive 5)
    have marked := (closed.act (i := 0) rfl (.closeStatement _ passive 7)).mark (i := 0) rfl
    have cleared := marked.act (i := 0) rfl (.clear (show Tape.clear _ silent = .ok _ from rfl))
    have called := cleared.act (i := 0) rfl (.addBlank _ 0 0)
    have again := called.act (i := 0) rfl (.addBlank _ 0 0)
    exact ⟨_, _, _, _, _, again, rfl, List.mem_singleton.mpr rfl, rfl, rfl, rfl, rfl⟩
  · have opened : Runs (F := Int) StillPrefix _ _ := Runs.empty.create .linear .jacobian
    have marked := (opened.act (i := 0) rfl
      (.input (show Tape.input _ (.constant 3) = .ok _ from rfl))).mark (i := 0) rfl
    have cleared := marked.act (i := 0) rfl (.clear (show Tape.clear _ silent = .ok _ from rfl))
    have called := cleared.act (i := 0) rfl (.addBlank _ 0 0)
    exact ⟨_, _, _, _, called, rfl, List.mem_singleton.mpr rfl, rfl⟩

end Shelf

end Autodiff
