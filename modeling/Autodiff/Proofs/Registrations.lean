import Autodiff.Catalogue
import Autodiff.Proofs.Acts
import Autodiff.Proofs.Tokens

namespace Autodiff

section Kernels

variable {F : Type} [Scalar F] {kernels kernels' : Kernels F} {s : Traced F}

theorem Traced.replay_congr {callback : Kernel F → Program F Unit} {k : Nat}
    (h : ∀ r ∈ s.tape.records, kernels r.token = kernels' r.token) :
    s.replay kernels callback k = s.replay kernels' callback k := by
  rw [replay, replay]
  cases hr : s.tape.records[k]? with
  | none => rfl
  | some r =>
    have hfind : kernels.find r.token = kernels'.find r.token := by
      rw [Kernels.find, Kernels.find, h r (List.mem_of_getElem? hr)]
    dsimp only
    rw [hfind]

theorem Deed.run_congr {d : Deed F} (hd : d.Sweeps)
    (h : ∀ r ∈ s.tape.records, kernels r.token = kernels' r.token) :
    d.run kernels s = d.run kernels' s := by
  cases d with
  | update => rfl
  | replay => exact Traced.replay_congr h
  | delete => exact hd.elim

theorem Deed.runAll_congr {ds : List (Deed F)} (hds : ∀ d ∈ ds, d.Sweeps)
    (h : ∀ r ∈ s.tape.records, kernels r.token = kernels' r.token) :
    runAll kernels s ds = runAll kernels' s ds := by
  induction ds generalizing s with
  | nil => rfl
  | cons d ds ih =>
    have hd := hds d List.mem_cons_self
    rw [runAll, runAll, List.foldlM_cons, List.foldlM_cons, ← run_congr hd h]
    cases hrun : d.run kernels s with
    | error halt => rfl
    | ok s' =>
      apply ih fun d h => hds d (List.mem_cons_of_mem _ h)
      rw [hd.records_eq hrun]
      exact h

namespace Tape

variable {t : Tape F}

theorem sweeps_congr (h : ∀ r ∈ t.records, kernels r.token = kernels' r.token) :
    (∀ start stop, t.tangentSweep kernels start stop = t.tangentSweep kernels' start stop) ∧
    (∀ start stop, t.adjointSweep kernels start stop = t.adjointSweep kernels' start stop) ∧
    ∀ start, t.deleteRecords kernels start = t.deleteRecords kernels' start := by
  refine ⟨fun start stop => ?_, fun start stop => ?_, fun start => ?_⟩
  · rw [tangentSweep_eq, tangentSweep_eq,
      Deed.runAll_congr (t.sweeps_tangentDeeds start stop) h]
  · rw [adjointSweep_eq, adjointSweep_eq,
      Deed.runAll_congr (t.sweeps_adjointDeeds start stop) h]
  · have hdelete : ∀ r ∈ (t.records.drop start).reverse, ∀ s : Traced F,
        deleteRecord kernels s r = deleteRecord kernels' s r := by
      intro r hr s
      have hr : r ∈ t.records := List.mem_of_mem_drop (List.mem_reverse.mp hr)
      rw [deleteRecord, deleteRecord, Kernels.find, Kernels.find, h r hr]
    rw [deleteRecords, deleteRecords]
    congr 1
    generalize (t.records.drop start).reverse = records at hdelete
    generalize (⟨t, []⟩ : Traced F) = s
    induction records generalizing s with
    | nil => rfl
    | cons r records ih =>
      rw [List.foldlM_cons, List.foldlM_cons, hdelete r List.mem_cons_self s]
      apply bind_congr
      exact fun s' => ih (fun r hr => hdelete r (List.mem_cons_of_mem _ hr)) s'

end Tape

end Kernels

namespace KernelTable

variable {I : Type} [DecidableEq I] {rs : List (I × Entry)}

structure Faithful (rs : List (I × Entry)) : Prop where
  answer_again : ∀ {before a between b}, before ++ a :: (between ++ [b]) <+: rs → a.1 = b.1 →
    answer (before ++ a :: between) b = answer before a
  answer_ne : ∀ {before a between b token token'}, before ++ a :: (between ++ [b]) <+: rs →
    a.1 ≠ b.1 → answer before a = .ok token → answer (before ++ a :: between) b = .ok token' →
    token ≠ token'
  isValid : ∀ {before a token}, before ++ [a] <+: rs → answer before a = .ok token →
    token.isValid = true
  refused : ∀ {before a fault}, before ++ [a] <+: rs → answer before a = .error fault →
    fault = .tooManyFunctions ∧ Token.invalid.index ≤ (before.map Prod.fst).toFinset.card
  stays : ∀ {before p token k}, before <+: rs →
    (empty.afterAll before).lookup p token = some k → (empty.afterAll rs).lookup p token = some k
  lookup_first : ∀ {before a later token}, rs = before ++ a :: later →
    (∀ b ∈ before, b.1 ≠ a.1) → answer before a = .ok token → ∀ b ∈ rs, b.1 = a.1 →
    ∃ k, (empty.afterAll rs).lookup b.2.precision token = some k ∧ ⟨b.2.precision, k⟩ = a.2 ∧
      ∀ q, q ≠ b.2.precision → ((empty.afterAll rs).kernels q).find token =
        .error (.fatal (.unknownToken token.index))
  unknown : ∀ {token}, (∀ before a, before ++ [a] <+: rs → answer before a ≠ .ok token) →
    ∀ q, ((empty.afterAll rs).kernels q).find token =
      .error (.fatal (.unknownToken token.index))

theorem faithful (hone : ∀ a ∈ rs, ∀ b ∈ rs, a.1 = b.1 → a.2.precision = b.2.precision) :
    Faithful rs where
  answer_again _ hab := KernelTable.answer_again hab _
  answer_ne _ hab ha hb := KernelTable.answer_ne hab ha hb
  isValid _ h := isValid_of_answer h
  refused _ h := answer_refused h
  stays hinit h := (extends_of_isPrefix hinit).lookup_eq h
  lookup_first := by
    rintro before a later token rfl hnew h b hb hba
    have he := getElem?_of_answer hnew h later
    have ha : a ∈ before ++ a :: later := List.mem_append_right _ List.mem_cons_self
    rw [hone b hb a ha hba]
    exact ⟨a.2.kernel, lookup_of_getElem? he, rfl, fun q hq => find_of_ne he hq.symm⟩
  unknown := by
    intro token hnever q
    apply find_of_count_le
    by_contra hlt
    obtain ⟨before, a, hinit, h⟩ := exists_answer (Nat.lt_of_not_le hlt)
    exact hnever before a hinit h

theorem resolves_iff {before later : List (I × Entry)} {a b : I × Entry} {token : Token}
    (hnew : ∀ c ∈ before, c.1 ≠ a.1) (h : answer before a = .ok token) (hba : b.1 = a.1) :
    answer (before ++ a :: later) b = .ok token ∧
      ((∃ k, (empty.afterAll (before ++ a :: later)).lookup b.2.precision token = some k) ↔
        a.2.precision = b.2.precision) ∧
      (a.2.precision ≠ b.2.precision → ∀ (t : Tape b.2.precision.Carrier) (α : Type) m n
        (fill : _ → _ → Except Fault (α × _)),
        t.addRecord ((empty.afterAll (before ++ a :: later)).kernels b.2.precision) token m n fill =
          .error (.fatal (.unknownToken token.index))) := by
  have he := getElem?_of_answer hnew h later
  refine ⟨(KernelTable.answer_again hba.symm later).trans h, ⟨?_, ?_⟩, fun hne t α m n fill => ?_⟩
  · rintro ⟨k, hk⟩
    by_contra hne
    have hfind := find_of_ne he hne
    rw [Kernels.find, kernels, hk] at hfind
    cases hfind
  · intro heq
    rw [← heq]
    exact ⟨_, lookup_of_getElem? he⟩
  · rw [Tape.addRecord, find_of_ne he hne]
    rfl

/-- One identity with functions of both precisions gets one token, which the tapes of the precision that
was registered last refuse. -/
theorem not_resolves_second_precision :
    let silent (p : Precision) : Entry := ⟨p, "silent", .pure (), .pure (), .pure ()⟩
    let rs : List (Unit × Entry) := [((), silent .single), ((), silent .double)]
    answer [((), silent .single)] ((), silent .double) = .ok ⟨0⟩ ∧
      (empty.afterAll rs).lookup .double ⟨0⟩ = none ∧
      ∀ t : Tape Precision.double.Carrier,
        t.addRecord ((empty.afterAll rs).kernels .double) ⟨0⟩ 0 0
          (fun fixed dynamic => .ok ((), fixed, dynamic)) = .error (.fatal (.unknownToken 0)) :=
  ⟨rfl, rfl, fun _ => rfl⟩

/-- The registrations so far, and the tape that they were made around. Records are added with the
table as it is, and the other operations may be given any. -/
inductive Hosted (p : Precision) : List (I × Entry) → Tape p.Carrier → Prop
  | new (rs policy kind) : Hosted p rs (.new policy kind)
  | register {rs t} (h : Hosted p rs t) (more : List (I × Entry)) : Hosted p (rs ++ more) t
  | push {rs t} {α : Type} {token m n fill} {x : α × Tape p.Carrier} (h : Hosted p rs t)
      (hx : t.addRecord ((empty.afterAll rs).kernels p) token m n fill = .ok x) :
      Hosted p rs x.2
  | act {rs t cs ds t'} (h : Hosted p rs t) (ha : t.Acts (fun _ => True) cs ds t')
      (hcs : ∀ r overwrite, .record r overwrite ∉ cs) : Hosted p rs t'

def Serves {p : Precision} (rs : List (I × Entry)) (t : Tape p.Carrier) : Prop :=
  ∃ known : Token → Kernel p.Carrier, ∀ more : List (I × Entry),
    let kernels := (empty.afterAll (rs ++ more)).kernels p
    (∀ r ∈ t.records, kernels.find r.token = .ok (known r.token)) ∧
    (∀ start stop, t.tangentSweep kernels start stop =
      t.tangentSweep (fun token => some (known token)) start stop) ∧
    (∀ start stop, t.adjointSweep kernels start stop =
      t.adjointSweep (fun token => some (known token)) start stop) ∧
    ∀ start, t.deleteRecords kernels start =
      t.deleteRecords (fun token => some (known token)) start

namespace Hosted

variable {p : Precision} {t : Tape p.Carrier}

theorem known (h : Hosted p rs t) :
    ∀ r ∈ t.records, ∃ k, (empty.afterAll rs).lookup p r.token = some k := by
  induction h with
  | new rs policy kind =>
    intro r hr
    cases hr
  | @register rs t _ more ih =>
    intro r hr
    obtain ⟨k, hk⟩ := ih r hr
    exact ⟨k, (extends_of_isPrefix (List.prefix_append rs more)).lookup_eq hk⟩
  | @push rs t α token m n fill x _ hx ih =>
    obtain ⟨k, hfind, hx⟩ := exists_of_bind_eq_ok hx
    obtain ⟨⟨y, fixed, dynamic⟩, -, hx⟩ := exists_of_bind_eq_ok hx
    cases hx
    intro r hr
    rcases List.mem_append.mp hr with hr | hr
    · exact ih r hr
    · obtain rfl := List.mem_singleton.mp hr
      rw [Kernels.find] at hfind
      split at hfind
      · exact ⟨_, ‹_›⟩
      · cases hfind
  | @act rs t cs ds t' _ ha hcs ih =>
    have hrecords : t'.records = (t.contents.changes cs).records :=
      congrArg Contents.records ha.changes.contents_eq
    intro r hr
    rw [hrecords] at hr
    obtain ⟨hplain, -⟩ | ⟨r, overwrite, rfl, -⟩ | ⟨position, rfl, -⟩ := ha.trichotomy
    · rw [Contents.records_changes hplain] at hr
      exact ih r hr
    · exact absurd List.mem_cons_self (hcs r overwrite)
    · exact ih r (List.mem_of_mem_take hr)

theorem serves (h : Hosted p rs t) : Serves rs t := by
  refine ⟨fun token =>
    ((empty.afterAll rs).lookup p token).getD ⟨"", .pure (), .pure (), .pure ()⟩, fun more => ?_⟩
  have hknown : ∀ r ∈ t.records, (empty.afterAll (rs ++ more)).kernels p r.token =
      some (((empty.afterAll rs).lookup p r.token).getD ⟨"", .pure (), .pure (), .pure ()⟩) := by
    intro r hr
    obtain ⟨k, hk⟩ := h.known r hr
    rw [kernels, (extends_of_isPrefix (List.prefix_append rs more)).lookup_eq hk, hk]
    rfl
  refine ⟨fun r hr => ?_, Tape.sweeps_congr hknown⟩
  rw [Kernels.find, hknown r hr]

theorem tokens_faithful (h : Hosted p rs t)
    (hone : ∀ a ∈ rs, ∀ b ∈ rs, a.1 = b.1 → a.2.precision = b.2.precision) :
    Faithful rs ∧ Serves rs t := ⟨faithful hone, h.serves⟩

theorem tokens_faithful_builtin :
    ∃ x : Unit × Tape Precision.double.Carrier,
      (Tape.new .reuse .primalValues).addRecord
        ((empty.afterAll (builtinEntries noScripts)).kernels .double) ⟨6⟩ 0 0
        (fun fixed dynamic => .ok ((), fixed, dynamic)) = .ok x ∧
      x.2.records.map Record.token = [⟨6⟩] ∧
      Faithful (builtinEntries noScripts ++ builtinEntries noScripts) ∧
      Serves (builtinEntries noScripts ++ builtinEntries noScripts) x.2 := by
  have hx : (Tape.new .reuse .primalValues).addRecord
      ((empty.afterAll (builtinEntries noScripts)).kernels .double) ⟨6⟩ 0 0
      (fun fixed dynamic => .ok ((), fixed, dynamic)) = .ok _ := rfl
  have hpush := (Hosted.new (builtinEntries noScripts) .reuse .primalValues).push hx
  exact ⟨_, hx, rfl, tokens_faithful (hpush.register (builtinEntries noScripts)) (by decide)⟩

end Hosted

end KernelTable

end Autodiff
