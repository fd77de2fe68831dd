import Autodiff.Proofs.Acts
import Autodiff.Proofs.Growth
import Autodiff.Tape.Statistics

namespace Autodiff

variable {F : Type} [Scalar F]

namespace Tape

def Leads : Tape F → Tape F → Prop :=
  Relation.ReflTransGen fun t t' => ∃ cs ds, t.Acts (fun _ => True) cs ds t'

def Records : Tape F → Tape F → Prop :=
  Relation.ReflTransGen fun t t' =>
    (∃ cs ds, t.Acts (fun _ => True) cs ds t') ∧ t'.vectors.adjoints = t.vectors.adjoints

namespace Records

variable {t t' : Tape F} {kernels : Kernels F} {x y : Variable F}

theorem leads (h : t.Records t') : t.Leads t' :=
  Relation.ReflTransGen.mono (fun _ _ h => h.1) _ _ h

theorem adjoints_eq (h : t.Records t') : t'.vectors.adjoints = t.vectors.adjoints := by
  induction h with
  | refl => rfl
  | tail _ h ih => exact h.2.trans ih

theorem act {cs : List (Change F)} {ds : List (Deed F)} (h : t.Acts (fun _ => True) cs ds t')
    (ha : t'.vectors.adjoints = t.vectors.adjoints) : t.Records t' := .single ⟨⟨cs, ds, h⟩, ha⟩

theorem adjoints_append (t : Tape F) (id : Identifier) (kind : StatementKind) (value : F) :
    (t.append id kind value).vectors.adjoints = t.vectors.adjoints := by
  change (t.vectors.setPrimal id value).adjoints = _
  rw [Vectors.setPrimal]
  split <;> rfl

theorem closeStatement (t : Tape F) (lhs : Identifier) (value : F) :
    t.Records (t.closeStatement lhs value).2 :=
  act (.closeStatement t lhs value) (adjoints_append ..)

theorem addArgument (t : Tape F) (id : Identifier) (weight : F) :
    t.Records (t.addArgument id weight) :=
  act (.addArgument t id weight) (by rw [Changes.vectors_addArgument])

theorem retire {id : Identifier} (h : t.retire id = .ok t') : t.Records t' := by
  refine act (.retire h) ?_
  obtain ⟨m, -, h⟩ := exists_of_bind_eq_ok h
  cases h
  rfl

theorem assign {value : F} {args : List (Identifier × F)} {z : Variable F × Tape F}
    (h : t.assign x value args = .ok z) : t.Records z.2 := by
  refine act (.assign h) ?_
  rw [Tape.assign] at h
  split at h
  · obtain ⟨t₁, h₁, h⟩ := exists_of_bind_eq_ok h
    cases h
    exact (retire h₁).adjoints_eq
  · cases h
    exact (adjoints_append ..).trans (by rw [Changes.vectors_addArguments])

theorem input {z : Variable F × Tape F} (h : t.input x = .ok z) : t.Records z.2 := by
  refine act (.input h) ?_
  obtain ⟨⟨id, m⟩, -, h⟩ := exists_of_bind_eq_ok h
  cases h
  dsimp only
  split
  · exact adjoints_append ..
  · rfl

theorem output {z : Variable F × Tape F} (h : t.output x = .ok z) : t.Records z.2 := by
  refine act (.output h) ?_
  rw [Tape.output] at h
  split at h
  · cases h
    rfl
  · obtain ⟨t₁, h₁, h⟩ := exists_of_bind_eq_ok h
    cases h
    refine (retire h₁).adjoints_eq.trans ((adjoints_append ..).trans ?_)
    rw [Changes.vectors_addArgument]

theorem freshOutput {z : F × Variable F × Tape F} (h : t.freshOutput x = .ok z) :
    t.Records z.2.2 := by
  refine act (.freshOutput h) ?_
  obtain ⟨⟨id, m⟩, -, h⟩ := exists_of_bind_eq_ok h
  cases h
  rfl

theorem release (h : t.release x = .ok (y, t')) : t.Records t' := by
  obtain ⟨t₁, h₁, h⟩ := exists_of_bind_eq_ok h
  cases h
  exact retire h₁

theorem releaseAll {xs ys : List (Variable F)} (h : t.releaseAll xs = .ok (ys, t')) :
    t.Records t' := by
  induction xs generalizing t ys with
  | nil =>
    cases h
    exact .refl
  | cons x xs ih =>
    obtain ⟨⟨y, t₁⟩, h₁, h⟩ := exists_of_bind_eq_ok h
    obtain ⟨⟨ys', t₂⟩, h₂, h⟩ := exists_of_bind_eq_ok h
    cases h
    exact (release h₁).trans (ih h₂)

theorem placeOutput {active : Bool} {old : F} (h : t.placeOutput x active = .ok (old, y, t')) :
    t.Records t' := by
  rw [Tape.placeOutput] at h
  split at h
  · exact freshOutput h
  · obtain ⟨⟨y, t₁⟩, h₁, h⟩ := exists_of_bind_eq_ok h
    cases h
    exact release h₁

theorem placeOutputs {xs ys : List (Variable F)} {a a' : Staged F} {places : List (Nat × Bool)}
    (h : t.placeOutputs xs a places = .ok (ys, a', t')) : t.Records t' := by
  induction places generalizing t xs a with
  | nil =>
    cases h
    exact .refl
  | cons place places ih =>
    obtain ⟨⟨old, y, t₁⟩, h₁, h⟩ := exists_of_bind_eq_ok h
    exact (placeOutput h₁).trans (ih h)

theorem stageInputs (t : Tape F) (xs : List (Variable F)) : t.Records (t.stageInputs xs).2 :=
  act (.stage t _) rfl

theorem stageOutputs (t : Tape F) (n : Nat) : t.Records (t.stageOutputs n).2 := act (.stage t _) rfl

theorem stageAll (t : Tape F) (xss : List (List (Variable F))) : t.Records (t.stageAll xss).2 := by
  induction xss generalizing t with
  | nil => exact .refl
  | cons xs xss ih => exact (stageInputs t xs).trans (ih _)

theorem reclaim {s : Schema F} {r : s.Record} (h : t.reclaim s r = .ok t') : t.Records t' := by
  obtain ⟨pool, -, h⟩ := exists_of_bind_eq_ok h
  cases h
  exact act (.stage t pool) rfl

theorem addRecord {α : Type} {token : Token} {m n : Nat}
    {fill : Writer F → Writer F → Except Fault (α × Writer F × Writer F)} {z : α × Tape F}
    (h : t.addRecord kernels token m n fill = .ok z) : t.Records z.2 := by
  have hrecord : (∃ r, z.2.records = t.records ++ [r]) ∧
      z.2.vectors.adjoints = t.vectors.adjoints := by
    obtain ⟨_, -, h⟩ := exists_of_bind_eq_ok h
    obtain ⟨⟨_, fixed, dynamic⟩, -, h⟩ := exists_of_bind_eq_ok h
    cases h
    exact ⟨⟨_, rfl⟩, adjoints_append ..⟩
  obtain ⟨⟨r, hr⟩, ha⟩ := hrecord
  exact act (.addRecord h hr) ha

theorem writeRecord {token : Token} {s : Schema F} {r : s.Record}
    (h : t.writeRecord kernels token s r = .ok t') : t.Records t' := by
  obtain ⟨z, hz, h⟩ := exists_of_bind_eq_ok h
  cases h
  exact addRecord hz

variable {xs ys : List (Variable F)} {token : Token}

theorem scale {factor : F} {x : List (Variable F)}
    (h : Scaling.scale t kernels token factor x xs = .ok (ys, t')) : t.Records t' := by
  obtain ⟨activity, -, h⟩ := exists_of_bind_eq_ok h
  split at h
  · exact releaseAll h
  · obtain ⟨⟨y, sy, t₁⟩, h₁, h⟩ := exists_of_bind_eq_ok h
    obtain ⟨t₂, h₂, h⟩ := exists_of_bind_eq_ok h
    obtain ⟨t₃, h₃, h⟩ := exists_of_bind_eq_ok h
    cases h
    have hstaged := (stageInputs t x).trans
      (stageOutputs _ (xs.zipWith (fun y x => { y with value := factor * x.value }) x).length)
    exact (hstaged.trans (placeOutputs h₁)).trans ((writeRecord h₂).trans (reclaim h₃))

theorem sumSquares {terms : List (SquareSum.Term F)}
    (h : SquareSum.sumSquares t kernels token terms xs = .ok (ys, t')) : t.Records t' := by
  obtain ⟨activity, -, h⟩ := exists_of_bind_eq_ok h
  have hall := stageAll t (terms.map SquareSum.Term.elements)
  generalize t.stageAll (terms.map SquareSum.Term.elements) = staged at h hall
  obtain ⟨sxs, t₀⟩ := staged
  have hstaged := hall.trans (stageOutputs t₀ xs.length)
  change (if activity.any then _ else _) = _ at h
  split at h
  · obtain ⟨⟨y, sy, t₁⟩, h₁, h⟩ := exists_of_bind_eq_ok h
    obtain ⟨t₂, h₂, h⟩ := exists_of_bind_eq_ok h
    obtain ⟨t₃, h₃, h⟩ := exists_of_bind_eq_ok h
    cases h
    exact (hstaged.trans (placeOutputs h₁)).trans ((writeRecord h₂).trans (reclaim h₃))
  · obtain ⟨⟨y, t₁⟩, h₁, h⟩ := exists_of_bind_eq_ok h
    obtain ⟨t₂, h₂, h⟩ := exists_of_bind_eq_ok h
    cases h
    exact (hstaged.trans (releaseAll h₁)).trans (reclaim h₂)

theorem multiply {s : MatrixOrder} {n k m : Nat} {a b : List (Variable F)}
    (h : Product.multiply t kernels token s n k m a b xs = .ok (ys, t')) : t.Records t' := by
  obtain ⟨-, -, h⟩ := exists_of_bind_eq_ok h
  obtain ⟨-, -, h⟩ := exists_of_bind_eq_ok h
  obtain ⟨-, -, h⟩ := exists_of_bind_eq_ok h
  obtain ⟨activity, -, h⟩ := exists_of_bind_eq_ok h
  split at h
  · exact releaseAll h
  · obtain ⟨⟨y, sy, t₁⟩, h₁, h⟩ := exists_of_bind_eq_ok h
    obtain ⟨t₂, h₂, h⟩ := exists_of_bind_eq_ok h
    obtain ⟨t₃, h₃, h⟩ := exists_of_bind_eq_ok h
    cases h
    have hstaged := ((stageInputs t a).trans (stageInputs _ b)).trans (stageOutputs _ (n * m))
    exact (hstaged.trans (placeOutputs h₁)).trans ((writeRecord h₂).trans (reclaim h₃))

end Records

namespace Leads

variable {t t' : Tape F}

theorem act {cs : List (Change F)} {ds : List (Deed F)}
    (h : t.Acts (fun _ => True) cs ds t') : t.Leads t' := .single ⟨cs, ds, h⟩

theorem setParameter {name : String} {n : Nat} (h : t.setParameterByName name n = .ok t') :
    t.Leads t' := by
  obtain ⟨p, -, h⟩ := exists_of_bind_eq_ok h
  cases p with
  | adjointSize =>
    cases h
    exact act (.seed t _)
  | primalSize =>
    have hresize := act (.resizePrimals t n)
    rw [Tape.setParameter] at h
    cases hp : t.vectors.primals with
    | none =>
      rw [hp] at h
      cases h
    | some p =>
      rw [hp] at h hresize
      cases h
      exact hresize
  | largestIdentifier => cases h
  | _ =>
    cases h
    exact .refl

end Leads

end Tape

theorem Recording.apply_records {c : Catalogue F} {r r' : Recording F} {op : Operation F}
    {note : Note F} (h : r.apply c op = .ok (note, r')) : r.tape.Records r'.tape := by
  cases op with
  | issue =>
    cases h
    exact .act (.issue r.tape) rfl
  | release v =>
    obtain ⟨⟨y, t⟩, hy, h⟩ := exists_of_bind_eq_ok h
    cases h
    exact .release hy
  | input v =>
    obtain ⟨⟨y, t⟩, hy, h⟩ := exists_of_bind_eq_ok h
    cases h
    exact .input hy
  | output v =>
    obtain ⟨⟨y, t⟩, hy, h⟩ := exists_of_bind_eq_ok h
    cases h
    exact .output hy
  | addArgument arg weight =>
    cases h
    exact .addArgument r.tape _ weight
  | closeStatement lhs value =>
    cases lhs with
    | «variable» v =>
      cases h
      exact .closeStatement r.tape _ value
    | identifier id =>
      cases h
      exact .closeStatement r.tape id value
  | assign v value args =>
    obtain ⟨⟨y, t⟩, hy, h⟩ := exists_of_bind_eq_ok h
    cases h
    exact .assign hy
  | externalOutput v =>
    obtain ⟨⟨old, y, t⟩, hy, h⟩ := exists_of_bind_eq_ok h
    cases h
    exact .freshOutput hy
  | scale factor x y =>
    obtain ⟨⟨ys, t⟩, hy, h⟩ := exists_of_bind_eq_ok h
    cases h
    rw [setAll_tape]
    exact .scale hy
  | sumSquares terms y =>
    obtain ⟨⟨ys, t⟩, hy, h⟩ := exists_of_bind_eq_ok h
    cases h
    rw [setAll_tape]
    exact .sumSquares hy
  | multiply s n k m a b y =>
    obtain ⟨⟨ys, t⟩, hy, h⟩ := exists_of_bind_eq_ok h
    cases h
    rw [setAll_tape]
    exact .multiply hy
  | _ =>
    cases h
    exact .refl

end Autodiff
