import Mathlib.Data.Fintype.Card
import Mathlib.Order.WellFounded
import Sigil.Proofs.Pool.Command
import Sigil.Tree.Generality

namespace Sigil.Pool

variable {p : Pool} {ids : List PatternId} {id : PatternId}

def TransitiveOn (p : Pool) (ids : List PatternId) : Prop :=
  ∀ a ∈ ids, ∀ b ∈ ids, ∀ c ∈ ids, p.generalizes a b = true → p.generalizes b c = true →
    p.generalizes a c = true

def Supersedes (p : Pool) (ids : List PatternId) (j i : Fin ids.length) : Prop :=
  j ≠ i ∧ p.generalizes ids[j] ids[i] = true ∧ (j < i ∨ p.generalizes ids[i] ids[j] = false)

theorem generalizes_self (p : Pool) (id : PatternId) : p.generalizes id id = true := by
  simp [generalizes]

theorem redundant_iff (i : Fin ids.length) :
    p.redundant ids ids[i] i = true ↔ ∃ j, p.Supersedes ids j i := by
  unfold redundant
  rw [List.any_eq_true]
  simp only [Prod.exists, List.mem_zipIdx_iff_getElem?, Bool.and_eq_true, Bool.or_eq_true,
    bne_iff_ne, ne_eq, decide_eq_true_iff, Bool.not_eq_true']
  constructor
  · rintro ⟨other, place, hplace, ⟨hne, hgen⟩, hlater⟩
    obtain ⟨hlt, rfl⟩ := List.getElem?_eq_some_iff.1 hplace
    exact ⟨⟨place, hlt⟩, fun h => hne (congrArg Fin.val h), hgen, hlater⟩
  · rintro ⟨j, hne, hgen, hlater⟩
    exact ⟨ids[j], j, List.getElem?_eq_getElem j.isLt, ⟨fun h => hne (Fin.ext h), hgen⟩, hlater⟩

/-- What is kept stands at a place that no other one supersedes. -/
theorem mem_pruneSpecializations :
    id ∈ p.pruneSpecializations ids ↔ ∃ i : Fin ids.length, ids[i] = id ∧
      ∀ j, ¬ p.Supersedes ids j i := by
  simp only [pruneSpecializations, List.mem_map, List.mem_filter, Prod.exists, exists_and_right,
    exists_eq_right, List.mem_zipIdx_iff_getElem?]
  constructor
  · rintro ⟨place, hplace, hkept⟩
    obtain ⟨hlt, rfl⟩ := List.getElem?_eq_some_iff.1 hplace
    refine ⟨⟨place, hlt⟩, rfl, fun j hj => ?_⟩
    rw [Bool.not_eq_true', ← Bool.not_eq_true] at hkept
    exact hkept ((redundant_iff ⟨place, hlt⟩).2 ⟨j, hj⟩)
  · rintro ⟨i, rfl, hkept⟩
    refine ⟨i, List.getElem?_eq_getElem i.isLt, ?_⟩
    rw [Bool.not_eq_true', ← Bool.not_eq_true, redundant_iff]
    exact fun ⟨j, hj⟩ => hkept j hj

theorem pruneSpecializations_sublist (p : Pool) (ids : List PatternId) :
    (p.pruneSpecializations ids).Sublist ids := by
  have h :=
    (List.filter_sublist (l := ids.zipIdx) (p := fun x => !p.redundant ids x.1 x.2)).map Prod.fst
  rwa [List.zipIdx_map_fst] at h

/-- Of two patterns that are kept, neither generalizes the other. -/
theorem pruneSpecializations_pairwise (p : Pool) (ids : List PatternId) :
    (p.pruneSpecializations ids).Pairwise fun a b => p.generalizes a b = false ∧
      p.generalizes b a = false := by
  have hplaces : ids.zipIdx.Pairwise fun a b => a.2 < b.2 := by
    rw [← List.pairwise_map (f := Prod.snd), List.zipIdx_map_snd]
    exact List.pairwise_lt_range'
  rw [pruneSpecializations, List.pairwise_map]
  refine (hplaces.filter _).imp_of_mem ?_
  rintro ⟨a, i⟩ ⟨b, j⟩ ha hb hlt
  simp only [List.mem_filter, List.mem_zipIdx_iff_getElem?] at ha hb
  obtain ⟨hi, rfl⟩ := List.getElem?_eq_some_iff.1 ha.1
  obtain ⟨hj, rfl⟩ := List.getElem?_eq_some_iff.1 hb.1
  have hkept : ∀ (i : Fin ids.length), (!p.redundant ids ids[i] i) = true →
      ∀ j, ¬ p.Supersedes ids j i := by
    intro i h j hj
    rw [(redundant_iff i).2 ⟨j, hj⟩] at h
    exact absurd h (by decide)
  have hne : (⟨i, hi⟩ : Fin ids.length) ≠ ⟨j, hj⟩ :=
    fun h => absurd (congrArg Fin.val h) (Nat.ne_of_lt hlt)
  have hforward : p.generalizes ids[i] ids[j] = false := by
    rw [← Bool.not_eq_true]
    exact fun h => hkept ⟨j, hj⟩ hb.2 ⟨i, hi⟩ ⟨hne, h, .inl hlt⟩
  -- the later one cannot supersede the earlier one, which does not generalize it
  refine ⟨hforward, ?_⟩
  rw [← Bool.not_eq_true]
  exact fun h => hkept ⟨i, hi⟩ ha.2 ⟨j, hj⟩ ⟨hne.symm, h, .inr hforward⟩

namespace Supersedes

variable {i j k : Fin ids.length}

theorem trans (htrans : p.TransitiveOn ids) (hkj : p.Supersedes ids k j)
    (hji : p.Supersedes ids j i) : p.Supersedes ids k i := by
  have hmem : ∀ n : Fin ids.length, ids[n] ∈ ids := fun n => List.getElem_mem n.isLt
  obtain ⟨hnekj, hgenkj, hlaterkj⟩ := hkj
  obtain ⟨hneji, hgenji, hlaterji⟩ := hji
  have hgen : p.generalizes ids[k] ids[i] = true :=
    htrans _ (hmem k) _ (hmem j) _ (hmem i) hgenkj hgenji
  by_cases hback : p.generalizes ids[i] ids[k] = true
  case neg =>
    refine ⟨?_, hgen, .inr (by rwa [← Bool.not_eq_true])⟩
    rintro rfl
    exact hback hgen
  case pos =>
    -- all three generalize one another, so each is dropped for an earlier one
    have hjk : p.generalizes ids[j] ids[k] = true :=
      htrans _ (hmem j) _ (hmem i) _ (hmem k) hgenji hback
    have hij : p.generalizes ids[i] ids[j] = true :=
      htrans _ (hmem i) _ (hmem k) _ (hmem j) hback hgenkj
    have hlt : k < j := hlaterkj.resolve_right (by rw [hjk]; decide)
    have hlt' : j < i := hlaterji.resolve_right (by rw [hij]; decide)
    exact ⟨(hlt.trans hlt').ne, hgen, .inl (hlt.trans hlt')⟩

theorem wellFounded (htrans : p.TransitiveOn ids) : WellFounded (p.Supersedes ids) := by
  have : IsTrans _ (p.Supersedes ids) := ⟨fun _ _ _ => Supersedes.trans htrans⟩
  have : Std.Irrefl (p.Supersedes ids) := ⟨fun _ h => h.1 rfl⟩
  exact Finite.wellFounded_of_trans_of_irrefl _

end Supersedes

/-- Pruning keeps a part of the list in its order, and no two patterns of which one generalizes the
other. Where generality is transitive, what it keeps generalizes all the list. -/
theorem pruneSpecializations_covers (p : Pool) (ids : List PatternId) :
    (p.pruneSpecializations ids).Sublist ids ∧
      (p.pruneSpecializations ids).Pairwise
        (fun a b => p.generalizes a b = false ∧ p.generalizes b a = false) ∧
      (p.TransitiveOn ids →
        (∀ id ∈ ids, ∃ kept ∈ p.pruneSpecializations ids, p.generalizes kept id = true) ∧
          (ids ≠ [] → p.pruneSpecializations ids ≠ [])) := by
  refine ⟨pruneSpecializations_sublist p ids, pruneSpecializations_pairwise p ids, fun htrans => ?_⟩
  have hcover : ∀ id ∈ ids, ∃ kept ∈ p.pruneSpecializations ids, p.generalizes kept id = true := by
    intro id hid
    obtain ⟨place, hplace, rfl⟩ := List.getElem_of_mem hid
    -- a place that supersedes this one, or is it, and that none supersedes
    obtain ⟨k, hk, hmin⟩ := (Supersedes.wellFounded htrans).has_min
      {j | j = ⟨place, hplace⟩ ∨ p.Supersedes ids j ⟨place, hplace⟩} ⟨⟨place, hplace⟩, .inl rfl⟩
    refine ⟨ids[k], mem_pruneSpecializations.2 ⟨k, rfl, fun j hj => hmin j (.inr ?_) hj⟩, ?_⟩
    · rcases hk with rfl | hk
      · exact hj
      · exact hj.trans htrans hk
    · rcases hk with rfl | hk
      · exact generalizes_self p _
      · exact hk.2.1
  refine ⟨hcover, fun hne => ?_⟩
  obtain ⟨id, hid⟩ := List.exists_mem_of_ne_nil ids hne
  obtain ⟨kept, hkept, -⟩ := hcover id hid
  exact List.ne_nil_of_mem hkept

/-- A range, a part of it and a byte of that part: the range is kept. -/
theorem pruneSpecializations_covers_ranges :
    ∀ id ∈ [⟨2⟩, ⟨1⟩, ⟨0⟩],
      ∃ kept ∈ (run [.range 97 122, .range 97 102, .lit [98]]).pruneSpecializations
          [⟨2⟩, ⟨1⟩, ⟨0⟩],
        (run [.range 97 122, .range 97 102, .lit [98]]).generalizes kept id = true :=
  ((pruneSpecializations_covers (run [.range 97 122, .range 97 102, .lit [98]])
    [⟨2⟩, ⟨1⟩, ⟨0⟩]).2.2 (by
    unfold TransitiveOn
    decide +kernel)).1

/-- Three live patterns that supersede one another in a circle: a file name, the same byte without a
context, and that file name or one byte of the contents. None is kept. -/
theorem pruneSpecializations_cycle :
    let p :=
      run [.any 8, .ctx .fileName ⟨0⟩, .ctx .fileContents ⟨0⟩, .seq [⟨1⟩], .seq [⟨0⟩], .seq [⟨2⟩],
      .alt [⟨3⟩, ⟨5⟩]]
    (∀ id ∈ [⟨3⟩, ⟨4⟩, ⟨6⟩], p.contains id = true) ∧
      p.pruneSpecializations [⟨3⟩, ⟨4⟩, ⟨6⟩] = [] := by
  decide +kernel

end Sigil.Pool
