import Mathlib.Data.List.Forall2
import Mathlib.Tactic.Common
import Sigil.Tree

namespace Sigil

namespace Kind

variable {α β γ : Type}

@[simp] theorem map_map (f : α → β) (g : β → γ) (k : Kind α) : (k.map f).map g = k.map (g ∘ f) := by
  cases k <;> simp [map]

theorem map_congr {f g : α → β} {k : Kind α} (h : ∀ s ∈ k.subs, f s = g s) : k.map f = k.map g := by
  cases k with
  | alt subs => exact congrArg alt (List.map_congr_left h)
  | seq subs => exact congrArg seq (List.map_congr_left h)
  | rep sub r => exact congrArg (rep · r) (h sub (by simp [subs]))
  | ctx d sub => exact congrArg (ctx d) (h sub (by simp [subs]))
  | _ => rfl

theorem eq_of_map_eq {f g : α → β} {k : Kind α} (h : k.map f = k.map g) {s : α} (hs : s ∈ k.subs) :
    f s = g s := by
  cases k with
  | alt subs => exact List.map_inj_left.1 (alt.inj h) s hs
  | seq subs => exact List.map_inj_left.1 (seq.inj h) s hs
  | rep sub r => rw [List.mem_singleton.1 hs]; exact (rep.inj h).1
  | ctx d sub => rw [List.mem_singleton.1 hs]; exact (ctx.inj h).2
  | _ => simp [subs] at hs

theorem eq_of_map_eq_on {f : α → β} {k k' : Kind α}
    (hf : ∀ s ∈ k.subs, ∀ t ∈ k'.subs, f s = f t → s = t) (h : k.map f = k'.map f) : k = k' := by
  have hlist : ∀ {ss ts : List α}, (∀ s ∈ ss, ∀ t ∈ ts, f s = f t → s = t) → ss.map f = ts.map f →
      ss = ts := by
    intro ss ts hss hmap
    induction ss generalizing ts with
    | nil => exact (List.map_eq_nil_iff.1 hmap.symm).symm
    | cons s ss ih =>
      obtain ⟨t, ts, rfl, ht, hts⟩ := List.map_eq_cons_iff.1 hmap.symm
      rw [hss s List.mem_cons_self t List.mem_cons_self ht.symm,
        ih (fun s' hs' t' ht' => hss s' (List.mem_cons_of_mem s hs') t'
          (List.mem_cons_of_mem t ht')) hts.symm]
  cases k <;> cases k' <;> simp only [map, reduceCtorEq] at h
  case alt.alt ss ts => exact congrArg alt (hlist hf (alt.inj h))
  case seq.seq ss ts => exact congrArg seq (hlist hf (seq.inj h))
  case rep.rep s r t q =>
    obtain ⟨hst, rfl⟩ := rep.inj h
    rw [hf s (List.mem_singleton_self s) t (List.mem_singleton_self t) hst]
  case ctx.ctx d s e t =>
    obtain ⟨rfl, hst⟩ := ctx.inj h
    rw [hf s (List.mem_singleton_self s) t (List.mem_singleton_self t) hst]
  all_goals simp_all

@[simp] theorem map_id' (k : Kind α) : k.map (fun s => s) = k := by
  cases k <;> simp [map]

/-- The parts of a layer besides the sub-patterns are such as the constructors let pass. -/
def Valid : Kind α → Prop
  | lit l => ¬ l.IsEmpty ∧ (l.IsPlain ∨ l.bits.WholeBytes)
  | any bits => 0 < bits
  | range lo hi => lo ≤ hi
  | rep _ r => r.AtMost r.min
  | _ => True

@[simp] theorem valid_map (f : α → β) (k : Kind α) : (k.map f).Valid ↔ k.Valid := by
  cases k <;> rfl

/-- The layers agree but for their sub-patterns, which are related one by one. -/
inductive Rel (R : α → β → Prop) : Kind α → Kind β → Prop where
  | lit (l : Literal) : Rel R (.lit l) (.lit l)
  | any (bits : Nat) : Rel R (.any bits) (.any bits)
  | range (lo hi : UInt8) : Rel R (.range lo hi) (.range lo hi)
  | anchor (a : Anchor) : Rel R (.anchor a) (.anchor a)
  | alt {ss : List α} {ts : List β} (h : List.Forall₂ R ss ts) : Rel R (.alt ss) (.alt ts)
  | seq {ss : List α} {ts : List β} (h : List.Forall₂ R ss ts) : Rel R (.seq ss) (.seq ts)
  | rep {s : α} {t : β} (h : R s t) (r : Repeat) : Rel R (.rep s r) (.rep t r)
  | ctx (d : Domain) {s : α} {t : β} (h : R s t) : Rel R (.ctx d s) (.ctx d t)

namespace Rel

variable {R : α → β → Prop} {k : Kind α} {k' : Kind β}

theorem map_eq {f : α → γ} {g : β → γ} (h : k.Rel R k') (hR : ∀ s t, R s t → f s = g t) :
    k.map f = k'.map g := by
  have hmap : ∀ {ss ts}, List.Forall₂ R ss ts → ss.map f = ts.map g := by
    intro ss ts hall
    induction hall with
    | nil => rfl
    | cons hst _ ih => rw [List.map_cons, List.map_cons, hR _ _ hst, ih]
  cases h with
  | alt h => exact congrArg Kind.alt (hmap h)
  | seq h => exact congrArg Kind.seq (hmap h)
  | rep h r => exact congrArg (Kind.rep · r) (hR _ _ h)
  | ctx d h => exact congrArg (Kind.ctx d) (hR _ _ h)
  | _ => rfl

theorem valid_iff (h : k.Rel R k') : k.Valid ↔ k'.Valid := by
  rw [← valid_map (fun _ => ()) k, h.map_eq (g := fun _ => ()) fun _ _ _ => rfl, valid_map]

theorem forall₂ (h : k.Rel R k') : List.Forall₂ R k.subs k'.subs := by
  cases h with
  | alt h | seq h => exact h
  | rep h | ctx d h => exact List.Forall₂.cons h List.Forall₂.nil
  | _ => exact List.Forall₂.nil

/-- Layers that agree are related if their sub-patterns are. -/
theorem of_forall₂ {S : α → β → Prop} (h : k.Rel R k') (hall : List.Forall₂ S k.subs k'.subs) :
    k.Rel S k' := by
  cases h with
  | lit l => exact lit l
  | any bits => exact any bits
  | range lo hi => exact range lo hi
  | anchor a => exact anchor a
  | alt _ => exact alt hall
  | seq _ => exact seq hall
  | rep _ r => exact rep (List.forall₂_cons.1 hall).1 r
  | ctx d _ => exact ctx d (List.forall₂_cons.1 hall).1

theorem exists_of_mem (h : k.Rel R k') {t : β} (ht : t ∈ k'.subs) : ∃ s ∈ k.subs, R s t := by
  have hall := h.forall₂
  obtain ⟨i, hi, rfl⟩ := List.mem_iff_getElem.1 ht
  exact ⟨_, List.getElem_mem (hall.length_eq ▸ hi), hall.get (hall.length_eq ▸ hi) hi⟩

theorem exists_of_mem_left (h : k.Rel R k') {s : α} (hs : s ∈ k.subs) : ∃ t ∈ k'.subs, R s t := by
  have hall := h.forall₂
  obtain ⟨i, hi, rfl⟩ := List.mem_iff_getElem.1 hs
  exact ⟨_, List.getElem_mem (hall.length_eq ▸ hi), hall.get hi (hall.length_eq ▸ hi)⟩

/-- Layers over the same third one are related if their sub-patterns are. -/
theorem span {S : α → γ → Prop} {T : β → γ → Prop} {k'' : Kind γ} (h : k.Rel R k')
    (h' : k.Rel S k'') (hT : ∀ s t u, R s t → S s u → T t u) : k'.Rel T k'' := by
  have hspan : ∀ {ss ts us}, List.Forall₂ R ss ts → List.Forall₂ S ss us →
      List.Forall₂ T ts us := by
    intro ss ts us hall
    induction hall generalizing us with
    | nil =>
      rintro ⟨⟩
      exact List.Forall₂.nil
    | cons hst _ ih =>
      rintro (_ | ⟨hsu, hall'⟩)
      exact List.Forall₂.cons (hT _ _ _ hst hsu) (ih hall')
  cases h with
  | lit l => cases h'; exact lit l
  | any bits => cases h'; exact any bits
  | range lo hi => cases h'; exact range lo hi
  | anchor a => cases h'; exact anchor a
  | alt h => cases h' with | alt h' => exact alt (hspan h h')
  | seq h => cases h' with | seq h' => exact seq (hspan h h')
  | rep h r => cases h' with | rep h' => exact rep (hT _ _ _ h h') r
  | ctx d h => cases h' with | ctx _ h' => exact ctx d (hT _ _ _ h h')

/-- The relation may be told from the sub-patterns that there are. -/
theorem mono_of_mem {S : α → β → Prop} (h : k.Rel R k') (hRS : ∀ s ∈ k.subs, ∀ t, R s t → S s t) :
    k.Rel S k' := by
  have hlist : ∀ {ss ts}, List.Forall₂ R ss ts → (∀ s ∈ ss, ∀ t, R s t → S s t) →
      List.Forall₂ S ss ts := by
    intro ss ts hall hss
    induction hall with
    | nil => exact .nil
    | @cons s t _ _ hst _ ih =>
      exact .cons (hss s List.mem_cons_self t hst) (ih fun s' hs' =>
        hss s' (List.mem_cons_of_mem s hs'))
  exact h.of_forall₂ (hlist h.forall₂ hRS)

theorem mono {S : α → β → Prop} (h : k.Rel R k') (hRS : ∀ s t, R s t → S s t) : k.Rel S k' :=
  h.mono_of_mem fun s _ => hRS s

theorem refl {R : α → α → Prop} {k : Kind α} (h : ∀ s ∈ k.subs, R s s) : k.Rel R k := by
  cases k with
  | lit l => exact lit l
  | any bits => exact any bits
  | range lo hi => exact range lo hi
  | anchor a => exact anchor a
  | alt ss => exact alt (List.forall₂_same.2 h)
  | seq ss => exact seq (List.forall₂_same.2 h)
  | rep s r => exact rep (h s (List.mem_singleton_self s)) r
  | ctx d s => exact ctx d (h s (List.mem_singleton_self s))

/-- A layer is related to one layer only if each sub-pattern is related to one thing only. -/
theorem unique (h : k.Rel R k') {k'' : Kind β} (h' : k.Rel R k'')
    (hR : ∀ s ∈ k.subs, ∀ t u, R s t → R s u → t = u) : k' = k'' := by
  have hmem : k.Rel (fun s t => s ∈ k.subs ∧ R s t) k' := h.mono_of_mem fun s hs t hst => ⟨hs, hst⟩
  have hsame := (hmem.span (T := Eq) h' fun s t u hst hsu => hR s hst.1 t u hst.2 hsu).map_eq
    fun s t hst => hst
  rwa [map_id', map_id'] at hsame

theorem map_left {f : γ → α} {k : Kind γ} :
    (k.map f).Rel R k' ↔ k.Rel (fun s t => R (f s) t) k' := by
  constructor
  · intro h
    cases k with
    | lit l => cases h; exact lit l
    | any bits => cases h; exact any bits
    | range lo hi => cases h; exact range lo hi
    | anchor a => cases h; exact anchor a
    | alt ss => cases h with | alt h => exact alt (List.forall₂_map_left_iff.1 h)
    | seq ss => cases h with | seq h => exact seq (List.forall₂_map_left_iff.1 h)
    | rep s r => cases h with | rep h => exact rep (R := fun s t => R (f s) t) h r
    | ctx d s => cases h with | ctx _ h => exact ctx (R := fun s t => R (f s) t) d h
  · intro h
    cases h with
    | lit l => exact lit l
    | any bits => exact any bits
    | range lo hi => exact range lo hi
    | anchor a => exact anchor a
    | alt h => exact alt (List.forall₂_map_left_iff.2 h)
    | seq h => exact seq (List.forall₂_map_left_iff.2 h)
    | rep h r => exact rep h r
    | ctx d h => exact ctx d h

end Rel

theorem exists_mapM {R : α → β → Prop} {f : α → Option β} {ss : List α}
    (h : ∀ s ∈ ss, ∃ t, f s = some t ∧ R s t) :
    ∃ ts, ss.mapM f = some ts ∧ List.Forall₂ R ss ts := by
  induction ss with
  | nil => exact ⟨[], rfl, List.Forall₂.nil⟩
  | cons s ss ih =>
    obtain ⟨t, ht, hR⟩ := h s List.mem_cons_self
    obtain ⟨ts, hts, hall⟩ := ih fun s' hs' => h s' (List.mem_cons_of_mem s hs')
    refine ⟨t :: ts, ?_, List.Forall₂.cons hR hall⟩
    rw [List.mapM_cons, ht, hts]
    rfl

theorem traverse_congr {f g : α → Option β} {k : Kind α} (h : ∀ s ∈ k.subs, f s = g s) :
    k.traverse f = k.traverse g := by
  have hlist : ∀ ss : List α, (∀ s ∈ ss, f s = g s) → ss.mapM f = ss.mapM g := by
    intro ss hss
    induction ss with
    | nil => rfl
    | cons s ss ih =>
      rw [List.mapM_cons, List.mapM_cons, hss s List.mem_cons_self,
        ih fun t ht => hss t (List.mem_cons_of_mem s ht)]
  cases k with
  | alt ss | seq ss => rw [traverse, traverse, hlist ss h]
  | rep s r | ctx d s => rw [traverse, traverse, h s (List.mem_singleton_self s)]
  | _ => rfl

/-- A layer is traversed if each sub-pattern is. -/
theorem exists_traverse {R : α → β → Prop} {f : α → Option β} {k : Kind α}
    (h : ∀ s ∈ k.subs, ∃ t, f s = some t ∧ R s t) : ∃ k', k.traverse f = some k' ∧ k.Rel R k' := by
  cases k with
  | lit l => exact ⟨_, rfl, Rel.lit l⟩
  | any n => exact ⟨_, rfl, Rel.any n⟩
  | range lo hi => exact ⟨_, rfl, Rel.range lo hi⟩
  | anchor a => exact ⟨_, rfl, Rel.anchor a⟩
  | alt ss =>
    change ∀ s ∈ ss, _ at h
    obtain ⟨ts, hts, hall⟩ := exists_mapM h
    exact ⟨.alt ts, by rw [traverse, hts]; rfl, Rel.alt hall⟩
  | seq ss =>
    change ∀ s ∈ ss, _ at h
    obtain ⟨ts, hts, hall⟩ := exists_mapM h
    exact ⟨.seq ts, by rw [traverse, hts]; rfl, Rel.seq hall⟩
  | rep s r =>
    obtain ⟨t, ht, hR⟩ := h s (List.mem_singleton_self s)
    exact ⟨.rep t r, by rw [traverse, ht]; rfl, Rel.rep hR r⟩
  | ctx d s =>
    obtain ⟨t, ht, hR⟩ := h s (List.mem_singleton_self s)
    exact ⟨.ctx d t, by rw [traverse, ht]; rfl, Rel.ctx d hR⟩

end Kind

namespace Tree

variable {ν μ α : Type}

/-- Induction over trees by layers. -/
theorem induct_subs {P : Tree ν → Prop} (node : ∀ n k, (∀ t ∈ k.subs, P t) → P (.node n k))
    (t : Tree ν) : P t := by
  induction t using Tree.induct with
  | alt n ts ih | seq n ts ih => exact node n _ ih
  | rep n t r ih => exact node n (.rep t r) (by simpa [Kind.subs] using ih)
  | ctx n d t ih => exact node n (.ctx d t) (by simpa [Kind.subs] using ih)
  | _ => exact node _ _ (by simp [Kind.subs])

mutual

def fold (layer : Kind α → α) : Tree ν → α
  | node _ (.lit l) => layer (.lit l)
  | node _ (.any n) => layer (.any n)
  | node _ (.range lo hi) => layer (.range lo hi)
  | node _ (.anchor a) => layer (.anchor a)
  | node _ (.alt ts) => layer (.alt (foldEach layer ts))
  | node _ (.seq ts) => layer (.seq (foldEach layer ts))
  | node _ (.rep t r) => layer (.rep (t.fold layer) r)
  | node _ (.ctx d t) => layer (.ctx d (t.fold layer))

def foldEach (layer : Kind α → α) : List (Tree ν) → List α
  | [] => []
  | t :: ts => t.fold layer :: foldEach layer ts

end

theorem foldEach_eq_map (layer : Kind α → α) (ts : List (Tree ν)) :
    foldEach layer ts = ts.map (fold layer) := by
  induction ts with
  | nil => rfl
  | cons t ts ih => rw [foldEach, ih, List.map_cons]

theorem fold_node (layer : Kind α → α) (n : ν) (k : Kind (Tree ν)) :
    (node n k).fold layer = layer (k.map (fold layer)) := by
  cases k <;> simp only [fold, foldEach_eq_map, Kind.map]

theorem shape_node (n : ν) (k : Kind (Tree ν)) : (node n k).shape = node () (k.map shape) := by
  cases k <;> simp only [shape, shapes_eq_map, Kind.map]

/-- Notes do not matter to a fold. -/
@[simp] theorem fold_shape (layer : Kind α → α) (t : Tree ν) :
    t.shape.fold layer = t.fold layer := by
  induction t using induct_subs with
  | node n k ih =>
    rw [shape_node, fold_node, fold_node, Kind.map_map]
    exact congrArg layer (Kind.map_congr ih)

inductive Each (P : Tree ν → Prop) : Tree ν → Prop where
  | node {n : ν} {k : Kind (Tree ν)} (root : P (.node n k)) (subs : ∀ t ∈ k.subs, Each P t) :
      Each P (.node n k)

theorem Each.root {P : Tree ν → Prop} {t : Tree ν} (h : t.Each P) : P t := by
  obtain ⟨hroot, -⟩ := h
  exact hroot

theorem Each.sub {P : Tree ν → Prop} {t s : Tree ν} (h : t.Each P) (hs : s ∈ t.kind.subs) :
    s.Each P := by
  obtain ⟨-, hsubs⟩ := h
  exact hsubs s hs

theorem each_node {P : Tree ν → Prop} {n : ν} {k : Kind (Tree ν)} :
    (node n k).Each P ↔ P (node n k) ∧ ∀ t ∈ k.subs, t.Each P :=
  ⟨fun h => ⟨h.root, fun _ ht => h.sub ht⟩, fun h => Each.node h.1 h.2⟩

theorem Each.mono {P Q : Tree ν → Prop} {t : Tree ν} (h : t.Each P) (hPQ : ∀ s, P s → Q s) :
    t.Each Q := by
  induction h with
  | node root _ ih => exact Each.node (hPQ _ root) ih

/-- The layers of a tree are such as the constructors let pass. -/
def Valid (t : Tree ν) : Prop := t.Each fun s => s.kind.Valid

end Tree

end Sigil
