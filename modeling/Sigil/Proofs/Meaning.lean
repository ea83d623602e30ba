import Sigil.Proofs.Plain

namespace Sigil

/-- The instances of a pattern, and where its matches in a buffer stop. The limit is cut where the
buffer ends. -/
@[ext]
structure Meaning where
  language : Language Bool
  stopAt : Buffer → (limit pos : Nat) → Option Nat

namespace Meaning

instance : Add Meaning :=
  ⟨fun m n => ⟨m.language + n.language, fun data limit pos =>
    (m.stopAt data limit pos).or (n.stopAt data limit pos)⟩⟩

instance : Zero Meaning := ⟨⟨0, fun _ _ _ => none⟩⟩

instance : Mul Meaning :=
  ⟨fun m n => ⟨m.language * n.language, fun data limit pos =>
    (m.stopAt data limit pos).bind (n.stopAt data limit)⟩⟩

instance : One Meaning := ⟨⟨1, fun _ _ pos => some pos⟩⟩

variable (m n : Meaning) (data : Buffer) (limit pos : Nat)

theorem add_language : (m + n).language = m.language + n.language := rfl

theorem add_stopAt :
    (m + n).stopAt data limit pos = (m.stopAt data limit pos).or (n.stopAt data limit pos) := rfl

theorem zero_stopAt : (0 : Meaning).stopAt data limit pos = none := rfl

theorem mul_language : (m * n).language = m.language * n.language := rfl

theorem mul_stopAt :
    (m * n).stopAt data limit pos = (m.stopAt data limit pos).bind (n.stopAt data limit) := rfl

theorem one_stopAt : (1 : Meaning).stopAt data limit pos = some pos := rfl

theorem ext_apply {m n : Meaning} (hlanguage : m.language = n.language)
    (hstop : ∀ data limit pos, m.stopAt data limit pos = n.stopAt data limit pos) : m = n :=
  Meaning.ext hlanguage (funext fun data => funext fun limit => funext fun pos =>
    hstop data limit pos)

instance : AddMonoid Meaning where
  add_assoc a b c := ext_apply (add_assoc _ _ _) fun data limit pos => by
    simp only [add_stopAt, Option.or_assoc]
  zero_add a := ext_apply (zero_add _) fun data limit pos => by
    rw [add_stopAt, zero_stopAt, Option.none_or]
  add_zero a := ext_apply (add_zero _) fun data limit pos => by
    rw [add_stopAt, zero_stopAt, Option.or_none]
  nsmul := nsmulRec

instance : Monoid Meaning where
  mul_assoc a b c := ext_apply (mul_assoc _ _ _) fun data limit pos => by
    simp only [mul_stopAt, Option.bind_assoc]
  one_mul a := ext_apply (one_mul _) fun data limit pos => by
    rw [mul_stopAt, one_stopAt, Option.bind_some]
  mul_one a := ext_apply (mul_one _) fun data limit pos => by
    rw [mul_stopAt]
    exact Option.bind_fun_some _

/-- A later alternative that occurred before adds nothing. -/
theorem add_add_self : m + n + m = m + n := by
  apply ext_apply
  · rw [add_language, add_language, add_right_comm, Language.add_self]
  · intro data limit pos
    simp only [add_stopAt]
    cases m.stopAt data limit pos with
    | none => simp
    | some stop => rfl

/-- A sum absorbs each of its terms. -/
theorem sum_add_of_mem {ms : List Meaning} {m : Meaning} (hm : m ∈ ms) : ms.sum + m = ms.sum := by
  obtain ⟨before, after, rfl⟩ := List.append_of_mem hm
  rw [List.sum_append, List.sum_cons, add_assoc, add_add_self]

theorem sum_language (ms : List Meaning) : ms.sum.language = (ms.map (·.language)).sum := by
  induction ms with
  | nil => rfl
  | cons m ms ih => rw [List.sum_cons, List.map_cons, List.sum_cons, add_language, ih]

theorem sum_stopAt (ms : List Meaning) :
    ms.sum.stopAt data limit pos = ms.findSome? fun m => m.stopAt data limit pos := by
  induction ms with
  | nil => rfl
  | cons m ms ih =>
    rw [List.sum_cons, add_stopAt, ih, List.findSome?_cons]
    cases m.stopAt data limit pos <;> rfl

theorem prod_language (ms : List Meaning) : ms.prod.language = (ms.map (·.language)).prod := by
  induction ms with
  | nil => rfl
  | cons m ms ih => rw [List.prod_cons, List.map_cons, List.prod_cons, mul_language, ih]

theorem prod_stopAt (ms : List Meaning) :
    ms.prod.stopAt data limit pos = ms.foldlM (fun pos m => m.stopAt data limit pos) pos := by
  induction ms generalizing pos with
  | nil => rfl
  | cons m ms ih =>
    rw [List.prod_cons, mul_stopAt, List.foldlM_cons]
    exact Option.bind_congr fun stop _ => ih stop

end Meaning

def Kind.meaning (k : Kind Meaning) : Meaning where
  language := (k.map (·.language)).language
  stopAt data limit := (k.map (·.stopAt data limit)).stopAt data (min limit data.bitSize)

theorem Kind.meaning_alt (ms : List Meaning) : (Kind.alt ms).meaning = ms.sum := by
  apply Meaning.ext_apply (Meaning.sum_language ms).symm
  intro data limit pos
  rw [Meaning.sum_stopAt]
  simp only [meaning, map, stopAt, List.findSome?_map]
  rfl

theorem Kind.meaning_seq (ms : List Meaning) : (Kind.seq ms).meaning = ms.prod := by
  apply Meaning.ext_apply (Meaning.prod_language ms).symm
  intro data limit pos
  rw [Meaning.prod_stopAt]
  simp only [meaning, map, stopAt, List.foldlM_map]

namespace Tree

variable {ν : Type}

/-- The meaning of a tree, from the leaves up. -/
def meaning (t : Tree ν) : Meaning := t.fold Kind.meaning

theorem meaning_node (n : ν) (k : Kind (Tree ν)) : (node n k).meaning = (k.map meaning).meaning :=
  fold_node ..

@[simp] theorem meaning_shape (t : Tree ν) : t.shape.meaning = t.meaning := fold_shape ..

theorem meaning_language (t : Tree ν) : t.meaning.language = t.language := by
  induction t using induct_subs with
  | node n k ih =>
    rw [meaning_node, language_node]
    exact congrArg Kind.language ((Kind.map_map meaning (·.language) k).trans (Kind.map_congr ih))

theorem meaning_stopAt (t : Tree ν) (data : Buffer) (limit : Nat) :
    t.meaning.stopAt data limit = t.plainAt data (min limit data.bitSize) := by
  induction t using induct_subs with
  | node n k ih =>
    rw [meaning_node, plainAt_node]
    exact congrArg (Kind.stopAt data _) ((Kind.map_map meaning (·.stopAt data limit) k).trans
      (Kind.map_congr ih))

/-- Trees of one meaning match the same. -/
theorem plainIn_congr {μ : Type} {t : Tree ν} {u : Tree μ} (h : t.meaning = u.meaning)
    (data : Buffer) (region : BitRange) (mode : MatchMode) :
    t.plainIn data region mode = u.plainIn data region mode := by
  have hat : t.plainAt data (min region.high data.bitSize) =
      u.plainAt data (min region.high data.bitSize) := by
    rw [← meaning_stopAt, ← meaning_stopAt, h]
  have hhit : t.plainHit data (min region.high data.bitSize) =
      u.plainHit data (min region.high data.bitSize) := by
    funext pos
    rw [plainHit, plainHit, hat]
  unfold plainIn
  dsimp only
  rw [hhit]

end Tree

end Sigil
