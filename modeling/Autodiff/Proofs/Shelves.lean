import Autodiff.Proofs.Acts
import Autodiff.Proofs.ExactScalar

namespace Autodiff

variable {F : Type} [Scalar F]

structure Reel (F : Type) [Scalar F] where
  tape : Tape F
  history : List (Change F)

namespace Reel

def new (policy : Policy) (kind : TapeKind) : Reel F := ⟨.new policy kind, []⟩

def arrays? (reel : Reel F) : Option (Arrays F) :=
  (Arrays.new reel.tape.hasPrimals).changes? reel.history

structure Sound (reel : Reel F) : Prop where
  arrays_eq : reel.arrays? = some (reel.tape.contents.packed reel.tape.hasPrimals)
  regular : reel.tape.contents.Regular reel.tape.hasPrimals

theorem sound_new (policy : Policy) (kind : TapeKind) : (new policy kind : Reel F).Sound :=
  ⟨congrArg some (Contents.packed_empty _).symm, Contents.regular_empty _⟩

theorem Sound.changes {reel : Reel F} (h : reel.Sound) {cs : List (Change F)} {t' : Tape F}
    (hc : reel.tape.Changes cs t') : Sound ⟨t', reel.history ++ cs⟩ := by
  constructor
  · have hbefore := h.arrays_eq
    rw [arrays?] at hbefore
    rw [arrays?, Arrays.changes?, List.foldlM_append, hc.hasPrimals_eq, ← Arrays.changes?, hbefore,
      hc.contents_eq]
    exact Contents.changes?_packed hc.permits
  · simp only [hc.hasPrimals_eq, hc.contents_eq]
    exact h.regular.changes hc.permits

end Reel

inductive Posting (F : Type) [Scalar F]
  | opened
  | pushed (i : Nat) (r : Record F)
  | replayed (i : Nat) (d : Direction) (k : Nat) (r : Option (Record F))
  | deleted (i : Nat) (r : Record F)
  | swapped (i j : Nat)

def Change.posting? (i : Nat) : Change F → Option (Posting F)
  | .record r _ => some (.pushed i r)
  | _ => none

def Deed.posting? (i : Nat) (t : Tape F) : Deed F → Option (Posting F)
  | .update _ => none
  | .replay d k => some (.replayed i d k t.records[k]?)
  | .delete r => some (.deleted i r)

def Reel.postings (i : Nat) (reel : Reel F) (cs : List (Change F)) (ds : List (Deed F)) :
    List (Posting F) :=
  cs.filterMap (Change.posting? i) ++ ds.filterMap (Deed.posting? i reel.tape)

/-- The tapes by number, those that were dropped left out. -/
structure Shelf (F : Type) [Scalar F] where
  reels : List (Option (Reel F))
  /-- The tapes that positions were taken of, as they were then. -/
  marked : List (Tape F)

namespace Shelf

def put (s : Shelf F) (i : Nat) (reel? : Option (Reel F)) : Shelf F :=
  { s with reels := s.reels.set i reel? }

/-- The shelves that operations lead to, with what they did to records on the way. -/
inductive Runs (accept : Shelf F → Tape F → Position → Prop) : Shelf F → List (Posting F) → Prop
  | empty : Runs accept ⟨[], []⟩ []
  | create {s : Shelf F} {ps} (h : Runs accept s ps) (policy kind) :
      Runs accept { s with reels := s.reels ++ [some (.new policy kind)] } (ps ++ [.opened])
  | act {s : Shelf F} {ps} {i : Nat} {reel : Reel F} {cs ds t'} (h : Runs accept s ps)
      (hi : s.reels[i]? = some (some reel))
      (ha : reel.tape.Acts (accept s reel.tape) cs ds t') :
      Runs accept (s.put i (some ⟨t', reel.history ++ cs⟩)) (ps ++ reel.postings i cs ds)
  | mark {s : Shelf F} {ps} {i : Nat} {reel : Reel F} (h : Runs accept s ps)
      (hi : s.reels[i]? = some (some reel)) :
      Runs accept { s with marked := s.marked ++ [reel.tape] } ps
  | swap {s : Shelf F} {ps} {i j : Nat} {a b : Reel F} (h : Runs accept s ps)
      (hi : s.reels[i]? = some (some a)) (hj : s.reels[j]? = some (some b)) :
      Runs accept ((s.put i (some b)).put j (some a)) (ps ++ [.swapped i j])
  | drop {s : Shelf F} {ps} {i : Nat} {reel : Reel F} {kernels : Kernels F} {u} (h : Runs accept s ps)
      (hi : s.reels[i]? = some (some reel)) (hd : reel.tape.discard kernels = .ok u) :
      Runs accept (s.put i none) (ps ++ reel.postings i [] (reel.tape.deleteDeeds 0))

theorem mem_of_mem_put {s : Shelf F} {i : Nat} {reel? : Option (Reel F)} {reel : Reel F}
    (h : some reel ∈ (s.put i reel?).reels) : some reel ∈ s.reels ∨ reel? = some reel := by
  rcases List.mem_or_eq_of_mem_set h with h | h
  · exact .inl h
  · exact .inr h.symm

theorem Runs.invariant {accept : Shelf F → Tape F → Position → Prop} {P : Reel F → Prop}
    {M : Tape F → Prop} (hnew : ∀ policy kind, P (.new policy kind))
    (hmark : ∀ reel, P reel → M reel.tape)
    (hact : ∀ {s : Shelf F} {reel : Reel F} {cs ds t'}, (∀ u ∈ s.marked, M u) → P reel →
      reel.tape.Acts (accept s reel.tape) cs ds t' → P ⟨t', reel.history ++ cs⟩)
    {s : Shelf F} {ps : List (Posting F)} (h : s.Runs accept ps) :
    (∀ reel, some reel ∈ s.reels → P reel) ∧ ∀ u ∈ s.marked, M u := by
  induction h with
  | empty => exact ⟨nofun, nofun⟩
  | create _ policy kind ih =>
    constructor
    · intro reel hreel
      rcases List.mem_append.mp hreel with hreel | hreel
      · exact ih.1 reel hreel
      · rw [Option.some.inj (List.mem_singleton.mp hreel)]
        exact hnew policy kind
    · exact ih.2
  | act _ hi ha ih =>
    constructor
    · intro reel hreel
      rcases mem_of_mem_put hreel with hreel | hreel
      · exact ih.1 reel hreel
      · rw [← Option.some.inj hreel]
        exact hact ih.2 (ih.1 _ (List.mem_of_getElem? hi)) ha
    · exact ih.2
  | mark _ hi ih =>
    constructor
    · exact ih.1
    · intro u hu
      rcases List.mem_append.mp hu with hu | hu
      · exact ih.2 u hu
      · rw [List.mem_singleton.mp hu]
        exact hmark _ (ih.1 _ (List.mem_of_getElem? hi))
  | swap _ hi hj ih =>
    constructor
    · intro reel hreel
      rcases mem_of_mem_put hreel with hreel | hreel
      · rcases mem_of_mem_put hreel with hreel | hreel
        · exact ih.1 reel hreel
        · exact ih.1 reel (hreel ▸ List.mem_of_getElem? hj)
      · exact ih.1 reel (hreel ▸ List.mem_of_getElem? hi)
    · exact ih.2
  | drop _ _ _ ih =>
    constructor
    · intro reel hreel
      rcases mem_of_mem_put hreel with hreel | hreel
      · exact ih.1 reel hreel
      · cases hreel
    · exact ih.2

theorem Runs.sound {accept : Shelf F → Tape F → Position → Prop} {s : Shelf F}
    {ps : List (Posting F)} (h : s.Runs accept ps) : ∀ reel, some reel ∈ s.reels → reel.Sound :=
  (h.invariant (M := fun _ => True) Reel.sound_new (fun _ _ => trivial)
    fun _ hsound ha => hsound.changes ha.changes).1

/-- The position is the beginning of the tape, or it was taken where the recording is a beginning of
what the tape still holds. -/
def StillPrefix (s : Shelf F) (t : Tape F) (p : Position) : Prop :=
  p = .zero ∨ ∃ u ∈ s.marked, p = u.position ∧ u.log <+: t.log

theorem StillPrefix.exists_contents {s : Shelf F} {t : Tape F} {p : Position}
    (h : s.StillPrefix t p) (hmarked : ∀ u ∈ s.marked, u.contents.Ordered) :
    ∃ u : Contents F, u.Ordered ∧ u.log <+: t.log ∧ p.statements = u.log.length ∧
      p.externals = u.records.length := by
  rcases h with rfl | ⟨u, hu, rfl, hlog⟩
  · exact ⟨.empty, Contents.ordered_empty, List.nil_prefix, rfl, rfl⟩
  · exact ⟨u.contents, hmarked u hu, hlog, rfl, rfl⟩

theorem Runs.ordered {s : Shelf F} {ps : List (Posting F)} (h : s.Runs StillPrefix ps) :
    (∀ reel, some reel ∈ s.reels → reel.tape.contents.Ordered) ∧
      ∀ u ∈ s.marked, u.contents.Ordered := by
  apply h.invariant (P := fun reel => reel.tape.contents.Ordered)
    (M := fun u => u.contents.Ordered) (fun _ _ => Contents.ordered_empty) (fun _ ho => ho)
  intro s reel cs ds t' hmarked ho ha
  simp only [ha.changes.contents_eq]
  obtain ⟨hplain, -⟩ | ⟨r, overwrite, rfl, -⟩ | ⟨p, rfl, -, haccept⟩ := ha.trichotomy
  · exact ho.changes ha.changes.permits fun p hp => hplain _ hp
  · exact ho.record r overwrite
  · -- What is left is the recording of an earlier moment, and that one was in order.
    have hprefix : s.StillPrefix reel.tape p := haccept.elim id .inl
    obtain ⟨u, hu, hlog, hstatements, hexternals⟩ := hprefix.exists_contents hmarked
    exact ho.cut hu hlog hstatements hexternals

theorem Runs.wellFormed {s : Shelf F} {ps : List (Posting F)} (h : s.Runs StillPrefix ps)
    {reel : Reel F} (hreel : some reel ∈ s.reels) :
    ∃ a : Arrays F, reel.arrays? = some a ∧ a.WellFormed reel.tape.hasPrimals ∧
      (∀ n, a.statement? n = reel.tape.log[n]?) ∧
      (∀ k, a.record? k = reel.tape.records[k]?) ∧
      (∀ st ∈ reel.tape.log, ∀ k, st.kind = .external k → k < reel.tape.records.length) ∧
      ∀ p, s.StillPrefix reel.tape p → ∃ b, a.cut? p = some b := by
  obtain ⟨harrays, hregular⟩ := h.sound reel hreel
  obtain ⟨hordered, hmarked⟩ := h.ordered
  have ho := hordered reel hreel
  refine ⟨_, harrays, hregular.wellFormed_packed ho, hregular.statement?_packed,
    Contents.record?_packed _ _, fun st hst k hk => ho.record_lt hst hk, fun p hp => ?_⟩
  obtain ⟨u, hu, hlog, hstatements, hexternals⟩ := hp.exists_contents hmarked
  refine ⟨_, Contents.packed_cut _ ?_ ?_⟩
  · rw [hstatements]
    exact hlog.length_le
  · rw [hexternals]
    exact ho.length_le hu hlog

end Shelf

def silent : Kernels Int := fun _ => some ⟨"silent", .pure (), .pure (), .pure ()⟩

def Record.blank (m n : Nat) : Record Int := ⟨⟨0⟩, .replicate m (.inl 0), .replicate n (.inl 0)⟩

theorem Tape.Acts.addBlank {accept : Position → Prop} (t : Tape Int) (m n : Nat) :
    t.Acts accept [.record (Record.blank m n) (t.overwriteOf passive 0)] []
      ({ t with records := t.records ++ [Record.blank m n] }.append passive
        (.external t.records.length) 0) := by
  have h : t.addRecord silent ⟨0⟩ m n (fun fixed dynamic => .ok ((), fixed, dynamic)) = .ok _ := rfl
  exact .addRecord h rfl

namespace Shelf

theorem runs_reopened : ∃ (s : Shelf Int) (ps : List (Posting Int)) (reel : Reel Int),
    s.Runs StillPrefix ps ∧ s.reels = [some reel] ∧ reel.tape.statementCount = 2 ∧
      reel.tape.records = [.blank 2 0] ∧
      ps = [.opened, .pushed 0 (.blank 1 3), .deleted 0 (.blank 1 3), .pushed 0 (.blank 2 0)] := by
  have opened : Runs (F := Int) StillPrefix _ _ := Runs.empty.create .reuse .primalValues
  have pending := opened.act (i := 0) rfl (.addArgument _ 1 3)
  have closed := pending.act (i := 0) rfl (.closeStatement _ passive 5)
  have called := (closed.mark (i := 0) rfl).act (i := 0) rfl (.addBlank _ 1 3)
  have back := called.act (i := 0) rfl (.backTo (show Tape.backTo _ silent _ = .ok _ from rfl)
    (.inr ⟨_, List.mem_singleton.mpr rfl, rfl, List.prefix_append _ _⟩))
  exact ⟨_, _, _, back.act (i := 0) rfl (.addBlank _ 2 0), rfl, rfl, rfl, rfl⟩

theorem Runs.wellFormed_reopened : ∃ (s : Shelf Int) (ps : List (Posting Int)) (reel : Reel Int),
    s.Runs StillPrefix ps ∧ some reel ∈ s.reels ∧ reel.tape.statementCount = 2 ∧
      ∃ a : Arrays Int, reel.arrays? = some a ∧ a.WellFormed reel.tape.hasPrimals ∧
        (∀ n, a.statement? n = reel.tape.log[n]?) ∧
        (∀ k, a.record? k = reel.tape.records[k]?) ∧
        (∀ st ∈ reel.tape.log, ∀ k, st.kind = .external k → k < reel.tape.records.length) ∧
        ∀ p, s.StillPrefix reel.tape p → ∃ b, a.cut? p = some b := by
  obtain ⟨s, ps, reel, h, hreels, hcount, -, -⟩ := runs_reopened
  have hreel : some reel ∈ s.reels := hreels ▸ List.mem_singleton.mpr rfl
  exact ⟨s, ps, reel, h, hreel, hcount, h.wellFormed hreel⟩

end Shelf

end Autodiff
