import Sigil.Pool.Unfold
import Sigil.Proofs.FirstBytes

namespace Sigil

namespace Literal

variable {l : Literal} {lead : Fin 8}

/-- The literal as it is compared: with flags, it is made of the bytes that hold it. -/
def compared (l : Literal) (lead : Fin 8) : Literal :=
  if l.IsPlain then l else { l with bits := .ofBytes ((l.stored lead).take (l.length / 8)) }

theorem compared_of_isPlain (h : l.IsPlain) : l.compared lead = l := if_pos h

theorem compared_of_not_isPlain (h : ¬ l.IsPlain) :
    l.compared lead = { l with bits := .ofBytes ((l.stored lead).take (l.length / 8)) } := if_neg h

theorem compared_zero (h : l.IsPlain ∨ l.bits.WholeBytes) : l.compared 0 = l := by
  by_cases hplain : l.IsPlain
  · exact compared_of_isPlain hplain
  · have hwhole := h.resolve_left hplain
    rw [compared_of_not_isPlain hplain, faced_zero hwhole, Bits.ofBytes_toBytes hwhole]

theorem isPlain_compared : (l.compared lead).IsPlain ↔ l.IsPlain := by
  unfold compared
  split <;> exact Iff.rfl

theorem le_length_stored (l : Literal) (lead : Fin 8) : l.length ≤ 8 * (l.stored lead).length := by
  obtain ⟨count, -, hpadding⟩ := Bits.exists_padding (List.replicate lead false ++ l.bits)
  have hlength := congrArg List.length hpadding
  rw [Bits.length_ofBytes, List.length_append, List.length_append] at hlength
  rw [stored, length]
  omega

theorem length_faced (l : Literal) (lead : Fin 8) :
    ((l.stored lead).take (l.length / 8)).length = l.length / 8 := by
  have hstored := l.le_length_stored lead
  rw [List.length_take]
  omega

theorem length_compared (h : l.IsPlain ∨ l.bits.WholeBytes) :
    (l.compared lead).length = l.length := by
  by_cases hplain : l.IsPlain
  · rw [compared_of_isPlain hplain]
  · have hwhole : l.length % 8 = 0 := h.resolve_left hplain
    rw [compared_of_not_isPlain hplain, length, Bits.length_ofBytes, length_faced]
    omega

/-- A literal occurs where the one that it is compared as does. -/
theorem occursAt_compared (h : l.IsPlain ∨ l.bits.WholeBytes) (data : Buffer) (pos limit : Nat) :
    (l.compared lead).occursAt 0 data pos limit = l.occursAt lead data pos limit := by
  have hlength : (l.compared lead).length = l.length := length_compared h
  unfold occursAt
  rw [hlength]
  by_cases hplain : l.IsPlain
  · rw [compared_of_isPlain hplain, if_pos hplain, if_pos hplain]
  · have hfaced : ((l.compared lead).stored 0).take (l.length / 8) =
        (l.stored lead).take (l.length / 8) := by
      rw [stored_zero, compared_of_not_isPlain hplain, Bits.toBytes_ofBytes, List.take_take,
        Nat.min_self]
    have haccepts : (l.compared lead).accepts = l.accepts := by
      rw [compared_of_not_isPlain hplain]
      rfl
    rw [if_neg hplain, if_neg (mt isPlain_compared.1 hplain), hfaced, haccepts]

theorem flaggedBytes?_of_flush (h : l.IsPlain ∨ lead = 0) :
    l.flaggedBytes? lead = l.flaggedBytes? 0 := by
  rcases h with hplain | rfl
  · rw [flaggedBytes?, flaggedBytes?, if_pos hplain, if_pos hplain]
  · rfl

end Literal

namespace Kind

variable {α β : Type} {lead : Fin 8}

def compared (lead : Fin 8) : Kind α → Kind α
  | lit l => lit (l.compared lead)
  | k => k

/-- A literal with flags begins with the first bit of the bytes that hold it. Others are compared
bit by bit, wherever they are stored. -/
def Flush (lead : Fin 8) : Kind α → Prop
  | lit l => l.IsPlain ∨ lead = 0
  | _ => True

instance (lead : Fin 8) (k : Kind α) : Decidable (k.Flush lead) :=
  match k with
  | .lit l => inferInstanceAs (Decidable (l.IsPlain ∨ lead = 0))
  | .any _ | .range .. | .anchor _ | .alt _ | .seq _ | .rep .. | .ctx .. => isTrue trivial

theorem flush_zero (k : Kind α) : k.Flush 0 := by
  cases k <;> simp [Flush]

theorem flush_map (f : α → β) (k : Kind α) : (k.map f).Flush lead ↔ k.Flush lead := by
  cases k <;> rfl

theorem Rel.flush_iff {R : α → β → Prop} {k : Kind α} {k' : Kind β} (h : k.Rel R k') :
    k.Flush lead ↔ k'.Flush lead := by
  cases h <;> rfl

theorem valid_compared {k : Kind α} (h : k.Valid) : (k.compared lead).Valid := by
  cases k with
  | lit l =>
    obtain ⟨hne, hflags⟩ := h
    have hlength : (l.compared lead).bits.length = l.bits.length := Literal.length_compared hflags
    constructor
    · intro hempty
      rw [Literal.IsEmpty, ← List.length_eq_zero_iff, hlength, List.length_eq_zero_iff] at hempty
      exact hne hempty
    · rw [Literal.isPlain_compared, Bits.WholeBytes, hlength]
      exact hflags
  | _ => exact h

theorem compared_of_flush {k : Kind α} (hk : k.Valid) (h : k.Flush lead) : k.compared lead = k := by
  cases k with
  | lit l =>
    rcases h with hplain | rfl
    · exact congrArg lit (Literal.compared_of_isPlain hplain)
    · exact congrArg lit (Literal.compared_zero hk.2)
  | _ => rfl

theorem map_compared (f : α → β) (k : Kind α) :
    (k.compared lead).map f = (k.map f).compared lead := by
  cases k <;> rfl

theorem subs_compared (k : Kind α) : (k.compared lead).subs = k.subs := by
  cases k <;> rfl

theorem sample_compared {k : Kind BitRange} (h : k.Valid) :
    (k.compared lead).sample = k.sample := by
  cases k with
  | lit l => simp only [compared, sample, Literal.length_compared h.2]
  | _ => rfl

end Kind

namespace Tree

mutual

/-- The tree whose literals are those that the literals of the given one are compared as. -/
def compared : Tree Note → Shape
  | node n (.lit l) => node () (.lit (l.compared n.lead))
  | node _ (.any bits) => node () (.any bits)
  | node _ (.range lo hi) => node () (.range lo hi)
  | node _ (.anchor a) => node () (.anchor a)
  | node _ (.alt ts) => node () (.alt (comparedEach ts))
  | node _ (.seq ts) => node () (.seq (comparedEach ts))
  | node _ (.rep t r) => node () (.rep t.compared r)
  | node _ (.ctx d t) => node () (.ctx d t.compared)

def comparedEach : List (Tree Note) → List Shape
  | [] => []
  | t :: ts => t.compared :: comparedEach ts

end

theorem comparedEach_eq_map (ts : List (Tree Note)) : comparedEach ts = ts.map compared := by
  induction ts with
  | nil => rfl
  | cons t ts ih => rw [comparedEach, ih, List.map_cons]

theorem compared_node (n : Note) (k : Kind (Tree Note)) :
    (node n k).compared = node () ((k.compared n.lead).map compared) := by
  cases k <;> simp only [compared, comparedEach_eq_map, Kind.compared, Kind.map]

/-- All literals with flags begin with the first bit of the bytes that hold them. -/
def Flush (t : Tree Note) : Prop := t.Each fun s => s.kind.Flush s.note.lead

variable {t : Tree Note}

theorem valid_compared (h : t.Valid) : t.compared.Valid := by
  induction t using induct_subs with
  | node n k ih =>
    rw [compared_node]
    refine Each.node ((Kind.valid_map ..).2 (Kind.valid_compared h.root)) ?_
    intro s hs
    rw [Kind.subs_map, Kind.subs_compared] at hs
    obtain ⟨u, hu, rfl⟩ := List.mem_map.1 hs
    exact ih u hu (h.sub hu)

theorem compared_of_flush (h : t.Valid) (hflush : t.Flush) : t.compared = t.shape := by
  induction t using induct_subs with
  | node n k ih =>
    have hvalid : k.Valid := h.root
    have hroot : k.Flush n.lead := hflush.root
    rw [compared_node, shape_node, Kind.compared_of_flush hvalid hroot]
    exact congrArg (node ()) (Kind.map_congr fun s hs => ih s hs (h.sub hs) (hflush.sub hs))

/-- Literals are compared by as many bits as they have. -/
theorem sample_compared (h : t.Valid) : t.compared.deduced.sample = t.deduced.sample := by
  induction t using induct_subs with
  | node n k ih =>
    have hvalid : k.Valid := h.root
    have hsubs : (k.map fun s => s.compared.deduced.sample) = k.map fun s => s.deduced.sample :=
      Kind.map_congr fun s hs => ih s hs (h.sub hs)
    rw [compared_node, deduced_sample, deduced_sample, Kind.map_map, Kind.map_compared]
    change Kind.sample ((k.map fun s => s.compared.deduced.sample).compared n.lead) = _
    rw [Kind.sample_compared ((Kind.valid_map ..).2 hvalid), hsubs]

end Tree

end Sigil
