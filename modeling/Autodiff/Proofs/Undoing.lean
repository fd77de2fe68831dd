import Autodiff.Proofs.Books
import Autodiff.Proofs.Following

namespace Autodiff

variable {F : Type} [Scalar F]

namespace Issuer

variable {m m' m'' : Issuer} {id : Identifier}

structure Onward (m m' : Issuer) : Prop where
  policy_eq : m'.policy = m.policy
  largest_le : m.largest ≤ m'.largest
  unused_linear : (m.policy = .linear → m.unused = []) → m'.policy = .linear → m'.unused = []

namespace Onward

theorem refl (m : Issuer) : m.Onward m := ⟨rfl, Nat.le_refl _, id⟩

theorem trans (h : m.Onward m') (h' : m'.Onward m'') : m.Onward m'' :=
  ⟨h'.policy_eq.trans h.policy_eq, h.largest_le.trans h'.largest_le,
    fun hm => h'.unused_linear (h.unused_linear hm)⟩

theorem issue (m : Issuer) : m.Onward m.issue.2 := by
  refine ⟨policy_issue m, ?_, ?_⟩
  · unfold Issuer.issue
    split
    · exact Nat.le_refl _
    · exact Nat.le_succ _
  · rw [policy_issue m]
    intro hm hp
    rw [Issuer.issue, hm hp]

theorem retire (h : m.retire id = .ok m') : m.Onward m' := by
  have hpolicy := policy_retire h
  unfold Issuer.retire at h
  split at h
  case h_1 =>
    cases h
    exact refl m
  case h_2 hreuse =>
    split at h
    case isTrue =>
      cases h
      exact refl m
    case isFalse =>
      split at h
      case isTrue =>
        cases h
        refine ⟨hpolicy, Nat.le_refl _, fun _ hp => ?_⟩
        cases hreuse.symm.trans hp
      case isFalse => cases h

theorem exchange {x : Identifier × Issuer} (h : m.exchange id = .ok x) : m.Onward x.2 := by
  obtain ⟨m₁, h₁, h⟩ := exists_of_bind_eq_ok h
  cases h
  exact (retire h₁).trans (issue m₁)

theorem settle (m : Issuer) (id : Identifier) : m.Onward (m.settle id).2 := by
  unfold Issuer.settle
  split
  · exact issue m
  · split
    · exact issue m
    · exact refl m

theorem rewind_eq (h : m.Onward m') (hm : m.policy = .linear → m.unused = []) :
    m'.rewind m.largest = .ok (match m'.policy with
      | .linear => m
      | .reuse => m') := by
  rw [rewind]
  cases hp' : m'.policy with
  | reuse => rfl
  | linear =>
    have hp : m.policy = .linear := h.policy_eq.symm.trans hp'
    have hunused' : m'.unused = [] := h.unused_linear hm hp'
    dsimp only
    rw [if_pos h.largest_le, hunused', ← hm hp, ← hp]

end Onward

end Issuer

namespace Contents

theorem prefix_changes {c : Contents F} {cs : List (Change F)} (hcut : ∀ p, .cut p ∉ cs) :
    c.log <+: (c.changes cs).log ∧ c.records <+: (c.changes cs).records := by
  induction cs generalizing c with
  | nil => exact ⟨List.prefix_rfl, List.prefix_rfl⟩
  | cons change cs ih =>
    obtain ⟨hlog, hrecords⟩ := ih (c := c.change change) fun p hp =>
      hcut p (List.mem_cons_of_mem _ hp)
    refine ⟨.trans ?_ hlog, .trans ?_ hrecords⟩ <;> cases change with
    | argument id weight =>
      rw [Contents.change]
      split <;> exact List.prefix_rfl
    | statement => first | exact List.prefix_append .. | exact List.prefix_rfl
    | record => exact List.prefix_append ..
    | cut p => exact absurd List.mem_cons_self (hcut p)

end Contents

namespace Tape

variable {t t' u : Tape F} {cs : List (Change F)} {ds : List (Deed F)} {accept : Position → Prop}

theorem issuer_closeStatement (t : Tape F) (lhs : Identifier) (value : F) :
    t.issuer.Onward (t.closeStatement lhs value).2.issuer := .settle t.issuer lhs

theorem issuer_addArguments (t : Tape F) (args : List (Identifier × F)) :
    (t.addArguments args).issuer = t.issuer := by rw [addArguments_eq]

theorem issuer_retire {id : Identifier} (h : t.retire id = .ok t') : t.issuer.Onward t'.issuer := by
  obtain ⟨m, hm, h⟩ := exists_of_bind_eq_ok h
  cases h
  exact .retire hm

theorem issuer_addRecord {α : Type} {kernels : Kernels F} {token : Token} {m n : Nat}
    {fill : Writer F → Writer F → Except Fault (α × Writer F × Writer F)} {x : α × Tape F}
    (h : t.addRecord kernels token m n fill = .ok x) : x.2.issuer = t.issuer := by
  obtain ⟨_, -, h⟩ := exists_of_bind_eq_ok h
  obtain ⟨⟨y, fixed, dynamic⟩, -, h⟩ := exists_of_bind_eq_ok h
  cases h
  rfl

section Operations

variable {x y : Variable F}

theorem issuer_release (h : t.release x = .ok (y, t')) : t.issuer.Onward t'.issuer := by
  obtain ⟨t₁, h₁, h⟩ := exists_of_bind_eq_ok h
  cases h
  exact issuer_retire h₁

theorem issuer_assign {value : F} {args : List (Identifier × F)}
    (h : t.assign x value args = .ok (y, t')) : t.issuer.Onward t'.issuer := by
  rw [Tape.assign] at h
  split at h
  · exact issuer_release h
  · cases h
    have hclose := issuer_closeStatement (t.addArguments args) x.identifier value
    rwa [issuer_addArguments] at hclose

theorem issuer_input (h : t.input x = .ok (y, t')) : t.issuer.Onward t'.issuer := by
  obtain ⟨⟨id, m⟩, hm, h⟩ := exists_of_bind_eq_ok h
  cases h
  dsimp only
  split <;> exact .exchange hm

theorem issuer_output (h : t.output x = .ok (y, t')) : t.issuer.Onward t'.issuer := by
  rw [Tape.output] at h
  split at h
  · cases h
    exact .refl _
  · obtain ⟨t₁, h₁, h⟩ := exists_of_bind_eq_ok h
    cases h
    have hclose := issuer_closeStatement (t.addArguments [(x.identifier, 1)]) passive x.value
    rw [issuer_addArguments] at hclose
    exact hclose.trans (issuer_retire h₁)

theorem issuer_freshOutput {old : F} (h : t.freshOutput x = .ok (old, y, t')) :
    t.issuer.Onward t'.issuer := by
  obtain ⟨⟨id, m⟩, hm, h⟩ := exists_of_bind_eq_ok h
  cases h
  exact .exchange hm

end Operations

theorem Acts.issuer_cases (h : t.Acts accept cs ds t') :
    ((∀ p, .cut p ∉ cs) ∧ t.issuer.Onward t'.issuer) ∨
      ∃ p, cs = [.cut p] ∧ t.issuer.rewind p.largest = .ok t'.issuer := by
  cases h with
  | issue => exact .inl ⟨nofun, .issue t.issuer⟩
  | retire h => exact .inl ⟨nofun, issuer_retire h⟩
  | addArgument id weight =>
    have hissuer : (t.addArgument id weight).issuer = t.issuer :=
      issuer_addArguments t [(id, weight)]
    rw [hissuer]
    exact .inl ⟨by simp, .refl _⟩
  | closeStatement lhs value => exact .inl ⟨by simp [statementOf], issuer_closeStatement t lhs value⟩
  | assign h =>
    exact .inl ⟨by split <;> simp [argumentsOf, statementOf], issuer_assign h⟩
  | input h => exact .inl ⟨by split <;> simp [statementOf], issuer_input h⟩
  | output h => exact .inl ⟨by split <;> simp [statementOf], issuer_output h⟩
  | freshOutput h => exact .inl ⟨nofun, issuer_freshOutput h⟩
  | addRecord h =>
    rw [issuer_addRecord h]
    exact .inl ⟨by simp, .refl _⟩
  | writeRecord h =>
    obtain ⟨x, hx, h⟩ := exists_of_bind_eq_ok h
    cases h
    rw [issuer_addRecord hx]
    exact .inl ⟨by simp, .refl _⟩
  | shrink h =>
    obtain ⟨pool, -, h⟩ := exists_of_bind_eq_ok h
    cases h
    exact .inl ⟨nofun, .refl _⟩
  | tangentSweep h =>
    rw [(tangentSweep_sameRecording h).issuer_eq]
    exact .inl ⟨nofun, .refl _⟩
  | adjointSweep h =>
    rw [(adjointSweep_sameRecording h).issuer_eq]
    exact .inl ⟨nofun, .refl _⟩
  | backTo h => exact .inr ⟨_, rfl, (backTo_keepsUpTo h).issuer_rewind⟩
  | clear h =>
    obtain ⟨s, hs, h⟩ := exists_of_bind_eq_ok h
    cases h
    exact .inr ⟨_, rfl, (backTo_keepsUpTo hs).issuer_rewind⟩
  | _ => exact .inl ⟨nofun, .refl _⟩

structure Continues (u t : Tape F) : Prop where
  log : u.log <+: t.log
  records : u.records <+: t.records
  issuer : u.issuer.Onward t.issuer

namespace Continues

theorem refl (t : Tape F) : t.Continues t := ⟨List.prefix_rfl, List.prefix_rfl, .refl _⟩

theorem cut {w : Tape F} (h : u.Continues t) (hw : u.Continues w)
    (hcontents : t'.contents = t.contents.change (.cut w.position))
    (hissuer : t.issuer.rewind w.issuer.largest = .ok t'.issuer) : u.Continues t' := by
  obtain ⟨hpolicy, hunused⟩ := Issuer.policy_rewind hissuer
  refine ⟨?_, ?_, hpolicy.trans h.issuer.policy_eq, ?_, fun hu hp => ?_⟩
  · rw [show t'.log = t.log.take w.log.length from congrArg Contents.log hcontents]
    exact List.prefix_take_iff.mpr ⟨h.log, hw.log.length_le⟩
  · rw [show t'.records = t.records.take w.records.length from
      congrArg Contents.records hcontents]
    exact List.prefix_take_iff.mpr ⟨h.records, hw.records.length_le⟩
  · rw [Issuer.rewind] at hissuer
    split at hissuer
    · split at hissuer
      · rw [← Except.ok.inj hissuer]
        exact hw.issuer.largest_le
      · cases hissuer
    · rw [← Except.ok.inj hissuer]
      exact h.issuer.largest_le
  · rw [hunused]
    exact h.issuer.unused_linear hu (hpolicy ▸ hp)

theorem act (h : u.Continues t) (ha : t.Acts accept cs ds t')
    (hcut : ∀ p, .cut p ∈ cs → ∃ w : Tape F, u.Continues w ∧ p = w.position) : u.Continues t' := by
  have hcontents := ha.changes.contents_eq
  rcases ha.issuer_cases with ⟨hnone, hissuer⟩ | ⟨p, rfl, hissuer⟩
  · obtain ⟨hlog, hrecords⟩ := Contents.prefix_changes (c := t.contents) hnone
    rw [← hcontents] at hlog hrecords
    exact ⟨h.log.trans hlog, h.records.trans hrecords, h.issuer.trans hissuer⟩
  · obtain ⟨w, hw, rfl⟩ := hcut p List.mem_cons_self
    exact h.cut hw hcontents hissuer

end Continues

def Reaches (t : Tape F) (p : Position) : Prop :=
  p.statements ≤ t.statementCount ∧ p.externals ≤ t.records.length

def cutAt (t : Tape F) (p : Position) (m : Issuer) (pool : Pool F) : Tape F :=
  { t with
    issuer := m
    log := t.log.take p.statements
    pending := []
    records := t.records.take p.externals
    pool := pool }

/-- A tape with the recording of another one. A reusing issuer stays, since variables may hold what it
has issued. -/
def restoring (t u : Tape F) (pool : Pool F) : Tape F :=
  { t with
    issuer := match t.issuer.policy with
      | .linear => u.issuer
      | .reuse => t.issuer
    log := u.log
    pending := u.pending
    records := u.records
    pool := pool }

theorem runAll_delete_cons (kernels : Kernels F) (s : Traced F) (r : Record F)
    (rs : List (Record F)) :
    Deed.runAll kernels s ((r :: rs).map .delete) =
      s.attempt (kernels.find r.token) >>= fun kernel =>
        kernel.delete.run ⟨s.tape.traits, .new "fixed" r.fixed, .new "dynamic" r.dynamic,
          s.tape.pool, .none, s.notes⟩ >>= fun x =>
        Deed.runAll kernels ⟨{ s.tape with pool := x.2.pool }, x.2.notes⟩ (rs.map .delete) := by
  rw [List.map_cons, Deed.runAll, List.foldlM_cons, Deed.run_delete]
  simp only [bind_assoc]
  rfl

theorem runAll_delete {kernels : Kernels F} {s s' : Traced F} {rs : List (Record F)}
    (h : Deed.runAll kernels s (rs.map .delete) = .ok s') :
    ∃ pool, s'.tape = { s.tape with pool := pool } := by
  induction rs generalizing s with
  | nil =>
    cases h
    exact ⟨_, rfl⟩
  | cons r rs ih =>
    rw [runAll_delete_cons] at h
    obtain ⟨kernel, -, h⟩ := exists_of_bind_eq_ok h
    obtain ⟨x, -, h⟩ := exists_of_bind_eq_ok h
    have hrest := ih h
    exact hrest

/-- The issuer is asked last, when all deletions have run. -/
theorem Reaches.backTo_eq {p : Position} (h : t.Reaches p) (kernels : Kernels F) :
    t.backTo kernels p =
      Deed.runAll kernels ⟨t, []⟩ ((t.records.drop p.externals).reverse.map .delete) >>= fun s =>
        match t.issuer.rewind p.largest with
        | .ok m => .ok ⟨t.cutAt p m s.tape.pool, s.notes⟩
        | .error fault => .error ⟨fault, s.notes⟩ := by
  rw [Tape.backTo_eq kernels h, deleteDeeds, Deed.runAll_append]
  cases hs : Deed.runAll kernels ⟨t, []⟩ ((t.records.drop p.externals).reverse.map .delete) with
  | error => rfl
  | ok s =>
    obtain ⟨tape, notes⟩ := s
    obtain ⟨pool, rfl⟩ := runAll_delete hs
    change (Traced.attempt _ (t.issuer.rewind p.largest) >>= _) = _
    cases t.issuer.rewind p.largest <;> rfl

theorem Continues.backTo_eq (h : u.Continues t) (hpending : u.pending = [])
    (hlinear : u.issuer.policy = .linear → u.issuer.unused = []) {later : List (Record F)}
    (hrecords : t.records = u.records ++ later) (kernels : Kernels F) :
    t.backTo kernels u.position = Deed.runAll kernels ⟨t, []⟩ (later.reverse.map .delete) >>=
      fun s => .ok ⟨t.restoring u s.tape.pool, s.notes⟩ := by
  have hreaches : t.Reaches u.position := ⟨h.log.length_le, h.records.length_le⟩
  have hdrop : t.records.drop u.position.externals = later := by
    rw [hrecords]
    exact List.drop_left
  have hlog : t.log.take u.position.statements = u.log := (List.prefix_iff_eq_take.mp h.log).symm
  have htake : t.records.take u.position.externals = u.records :=
    (List.prefix_iff_eq_take.mp h.records).symm
  have hrewind : t.issuer.rewind u.position.largest = _ := h.issuer.rewind_eq hlinear
  rw [hreaches.backTo_eq, hdrop, hrewind]
  simp only [cutAt, restoring, hlog, htake, hpending]

end Tape

namespace Posting

def pushed? : Posting F → Option (Record F)
  | .pushed _ r => some r
  | _ => none

def deleted? : Posting F → Option (Record F)
  | .deleted _ r => some r
  | _ => none

theorem filterMap_deleted? (i : Nat) (rs : List (Record F)) :
    (rs.map (deleted i)).filterMap deleted? = rs := by
  rw [List.filterMap_map]
  exact List.filterMap_some

theorem filterMap_pushed? (i : Nat) (rs : List (Record F)) :
    (rs.map (deleted i)).filterMap pushed? = [] := by simp [pushed?]

end Posting

namespace Reel

/-- What follows a moment of a tape, as long as it goes back to positions only that were taken since.
The tapes of these positions are listed, and what was done to records. -/
inductive Since (i : Nat) (a : Reel F) : List (Tape F) → List (Posting F) → Reel F → Prop
  | here : Since i a [a.tape] [] a
  | mark {marked ps b} (h : Since i a marked ps b) : Since i a (b.tape :: marked) ps b
  | act {marked ps b cs ds t'} (h : Since i a marked ps b)
      (ha : b.tape.Acts (fun _ => True) cs ds t')
      (hcut : ∀ p, .cut p ∈ cs → ∃ w ∈ marked, p = w.position) :
      Since i a marked (ps ++ b.postings i cs ds) ⟨t', b.history ++ cs⟩

namespace Since

variable {i : Nat} {a b : Reel F} {marked : List (Tape F)} {ps : List (Posting F)}

theorem continues_tape (h : a.Since i marked ps b) :
    a.tape.Continues b.tape ∧ ∀ w ∈ marked, a.tape.Continues w := by
  induction h with
  | here => exact ⟨.refl _, by simpa using .refl _⟩
  | mark _ ih => exact ⟨ih.1, by simpa using ih⟩
  | act _ ha hcut ih =>
    refine ⟨ih.1.act ha fun p hp => ?_, ih.2⟩
    obtain ⟨w, hw, rfl⟩ := hcut p hp
    exact ⟨w, ih.2 w hw, rfl⟩

theorem hasPrimals_eq (h : a.Since i marked ps b) : b.tape.hasPrimals = a.tape.hasPrimals := by
  induction h with
  | here => rfl
  | mark _ ih => exact ih
  | act _ ha _ ih => exact ha.changes.hasPrimals_eq.trans ih

theorem sound (h : a.Since i marked ps b) (ha : a.Sound) : b.Sound := by
  induction h with
  | here => exact ha
  | mark _ ih => exact ih
  | act _ hacts _ ih => exact ih.changes hacts.changes

theorem records (h : a.Since i marked ps b) : ∃ later, b.tape.records = a.tape.records ++ later ∧
    later.Sublist (ps.filterMap Posting.pushed?) ∧
    (ps.filterMap Posting.pushed?).Perm (ps.filterMap Posting.deleted? ++ later) := by
  induction h with
  | here => exact ⟨[], by simp⟩
  | mark _ ih => exact ih
  | @act marked ps b cs ds t' h ha hcut ih =>
    obtain ⟨later, hlater, hsub, hperm⟩ := ih
    have hcontinues := ((h.act ha hcut).continues_tape).1.records
    simp only [List.filterMap_append]
    obtain ⟨hrecords, hreplays⟩ | ⟨r, hrecords, hpost⟩ | ⟨k, hrecords, hpost⟩ :=
      b.postings_cases ha i
    · -- Replays neither push nor delete.
      have hnone {α : Type} (f : Posting F → Option α) (hf : ∀ d k r, f (.replayed i d k r) = none) :
          (b.postings i cs ds).filterMap f = [] := by
        rw [List.filterMap_eq_nil_iff]
        intro p hp
        obtain ⟨d, k, r, rfl, -⟩ := hreplays p hp
        exact hf d k _
      rw [hnone _ fun _ _ _ => rfl, hnone _ fun _ _ _ => rfl, List.append_nil, List.append_nil]
      exact ⟨later, hrecords.trans hlater, hsub, hperm⟩
    · rw [hpost]
      refine ⟨later ++ [r], ?_, hsub.append (.refl _), ?_⟩
      · rw [hrecords, hlater, List.append_assoc]
      · have hnone : [Posting.pushed i r].filterMap Posting.deleted? = [] := rfl
        rw [hnone, List.append_nil, ← List.append_assoc]
        exact hperm.append_right [r]
    · have hk : a.tape.records.length ≤ k := by
        simp only [hrecords] at hcontinues
        exact hcontinues.length_le.trans (List.length_take_le ..)
      obtain ⟨k, rfl⟩ := Nat.exists_eq_add_of_le hk
      have hgone : b.tape.records.drop (a.tape.records.length + k) = later.drop k := by
        rw [hlater, List.drop_length_add_append]
      rw [hpost, hgone]
      refine ⟨later.take k, ?_, ?_, ?_⟩
      · rw [hrecords, hlater, List.take_length_add_append]
      · rw [Posting.filterMap_pushed?, List.append_nil]
        exact (List.take_sublist k later).trans hsub
      · rw [Posting.filterMap_pushed?, Posting.filterMap_deleted?, List.append_nil,
          List.append_assoc]
        have hsplit : later.Perm ((later.drop k).reverse ++ later.take k) := by
          conv_lhs => rw [← List.take_append_drop k later]
          exact List.perm_append_comm.trans ((List.reverse_perm _).symm.append_right _)
        exact hperm.trans (hsplit.append_left _)

theorem arrays_eq (h : a.Since i marked ps b) (ha : a.Sound) (hpending : a.tape.pending = [])
    (pool : Pool F) :
    arrays? ⟨b.tape.restoring a.tape pool, b.history ++ [.cut a.tape.position]⟩ = a.arrays? := by
  obtain ⟨hlog, hrecords, -⟩ := h.continues_tape.1
  have hcontents : b.tape.contents.change (.cut a.tape.position) = a.tape.contents := by
    have htake : b.tape.log.take a.tape.position.statements = a.tape.log :=
      (List.prefix_iff_eq_take.mp hlog).symm
    have htake' : b.tape.records.take a.tape.position.externals = a.tape.records :=
      (List.prefix_iff_eq_take.mp hrecords).symm
    rw [Contents.change, Tape.contents, htake, htake', Tape.contents, hpending]
  have hbefore := (h.sound ha).arrays_eq
  rw [arrays?, Arrays.changes?] at hbefore
  rw [arrays?, Arrays.changes?, List.foldlM_append]
  change (List.foldlM _ (Arrays.new b.tape.hasPrimals) _ >>= _) = _
  rw [hbefore, ha.arrays_eq, ← hcontents, ← h.hasPrimals_eq]
  change ((b.tape.contents.packed _).cut? a.tape.position >>= pure) = _
  rw [bind_pure]
  exact Contents.packed_cut _ hlog.length_le hrecords.length_le

end Since

end Reel

namespace Shelf

variable {accept : Shelf F → Tape F → Position → Prop} {s : Shelf F} {ps qs : List (Posting F)}
  {a b : Reel F} {i : Nat} {marked : List (Tape F)}

theorem Runs.unused_linear (h : s.Runs accept ps) (ha : some a ∈ s.reels) :
    a.tape.issuer.policy = .linear → a.tape.issuer.unused = [] := by
  refine (h.invariant (P := fun reel => reel.tape.issuer.policy = .linear →
    reel.tape.issuer.unused = []) (M := fun _ => True) (fun _ _ _ => rfl) (fun _ _ => trivial)
    ?_).1 a ha
  intro s reel cs ds t' _ hreel hacts
  rcases hacts.issuer_cases with ⟨-, hissuer⟩ | ⟨p, -, hissuer⟩
  · exact hissuer.unused_linear hreel
  · obtain ⟨hpolicy, hunused⟩ := Issuer.policy_rewind hissuer
    simp only [hpolicy, hunused]
    exact hreel

end Shelf

end Autodiff
