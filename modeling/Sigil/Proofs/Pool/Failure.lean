import Sigil.Proofs.Pool.Builtins
import Sigil.Proofs.Pool.Splice
import Sigil.Proofs.Registry.Holders

namespace Sigil

open Pool

namespace Edit

variable {α β : Type} {e : Edit α} {f : α → Edit β} {p : Pool} {error : PatternError}
  {id : PatternId} {ids : List PatternId} {k : Kind PatternId} {bytes : List UInt8}
  {P : α → Pool → Prop}

def error? (e : Edit α) (p : Pool) : Option PatternError :=
  match e p with
  | .ok _ _ => none
  | .error error _ => some error

theorem error?_eq_some : e.error? p = some error ↔ ∃ q, e p = .error error q := by
  unfold error?
  cases e p <;> simp

/-! ## Edits that fail without a trace -/

def Atomic (e : Edit α) (p : Pool) : Prop := ∀ error q, e p = .error error q → q = p

namespace Atomic

theorem after_eq (h : Atomic e p) (herror : e.error? p = some error) : e.after p = p := by
  obtain ⟨q, hrun⟩ := error?_eq_some.1 herror
  rw [after, hrun]
  exact h error q hrun

theorem of_succeeds (h : Succeeds e p P) : Atomic e p := by
  obtain ⟨a, q, hrun, -⟩ := h
  intro error r hfail
  rw [hrun] at hfail
  cases hfail

theorem pure (a : α) : Atomic (Pure.pure a) p :=
  of_succeeds (Succeeds.pure (P := fun _ _ => True) trivial)

theorem modify (f : Pool → Pool) : Atomic (modify f : Edit PUnit) p :=
  of_succeeds (Succeeds.modify (P := fun _ _ => True) trivial)

theorem throw (error : PatternError) : Atomic (throw error : Edit α) p := by
  intro _ q hfail
  cases hfail
  rfl

theorem insert (k : Kind PatternId) {lead : Fin 8} : Atomic (Edit.insert k lead) p := by
  intro error q hfail
  unfold Edit.insert at hfail
  split at hfail
  case h_1 =>
    cases hfail
    rfl
  case h_2 => cases hfail

/-- A step that leaves the pool alone before the rest of an edit. -/
theorem bind (h : Atomic e p) (hlook : ∀ a q, e p = .ok a q → q = p ∧ Atomic (f a) p) :
    Atomic (e >>= f) p := by
  intro error q hfail
  change EStateM.bind e f p = _ at hfail
  unfold EStateM.bind at hfail
  cases hrun : e p with
  | ok a r =>
    obtain ⟨rfl, hf⟩ := hlook a r hrun
    rw [hrun] at hfail
    exact hf error q hfail
  | error err r =>
    rw [hrun] at hfail
    cases hfail
    exact h error q hrun

/-- A look at a pattern before the rest of an edit. -/
theorem node_bind {f : Node → Edit β} (hf : ∀ node, p.get? id = some node → Atomic (f node) p) :
    Atomic (Edit.node id >>= f) p := by
  refine bind (fun error q hfail => ?_) fun node q hrun => ?_
  · unfold Edit.node at hfail
    split at hfail
    case h_1 => cases hfail
    case h_2 =>
      cases hfail
      rfl
  · unfold Edit.node at hrun
    split at hrun
    case h_1 hnode =>
      cases hrun
      exact ⟨rfl, hf node hnode⟩
    case h_2 => cases hrun

theorem get_bind {f : Pool → Edit β} (hf : Atomic (f p) p) : Atomic (MonadState.get >>= f) p := by
  refine bind (of_succeeds (Succeeds.get (P := fun _ _ => True) trivial)) fun a q hrun => ?_
  cases hrun
  exact ⟨rfl, hf⟩

/-- A check that may fail before the rest of an edit. -/
theorem check {b : Prop} [Decidable b] {rest : Edit α} (h : Atomic rest p) :
    Atomic (if b then do let _ : PUnit ← MonadExcept.throw error; rest else rest) p := by
  split
  case isTrue => exact throw error
  case isFalse => exact h

theorem annotate (id : PatternId) (f : Node → Node) : Atomic (Edit.annotate id f) p :=
  node_bind fun _ _ => modify _

end Atomic

theorem atomic_literal (l : Literal) (lead : Fin 8) : Atomic (literal l lead) p := by
  unfold literal
  exact Atomic.check (Atomic.check (Atomic.insert _))

theorem atomic_any (bits : Nat) : Atomic (any bits) p := by
  unfold any
  exact Atomic.check (Atomic.insert _)

theorem atomic_range (lo hi : UInt8) : Atomic (range lo hi) p := by
  unfold range
  exact Atomic.check (Atomic.insert _)

theorem atomic_rep (sub : PatternId) (counts : Repeat) : Atomic (rep sub counts) p := by
  unfold rep
  split
  case h_1 => exact Atomic.check (Atomic.insert _)
  case h_2 => exact Atomic.insert _

theorem atomic_ctx (domain : Domain) (sub : PatternId) : Atomic (ctx domain sub) p := by
  refine Atomic.node_bind fun node _ => ?_
  split
  on_goal 1 => split
  case isTrue => exact Atomic.pure _
  all_goals
    refine Atomic.get_bind ?_
    split
    case h_1 => exact Atomic.pure _
    case h_2 => exact Atomic.insert _

theorem atomic_pushSub (multi sub : PatternId) : Atomic (pushSub multi sub) p := by
  unfold pushSub
  refine Atomic.node_bind fun _ _ => Atomic.node_bind fun node _ => ?_
  split
  case isTrue => exact Atomic.get_bind (Atomic.check (Atomic.modify _))
  case isFalse => exact Atomic.throw _

theorem atomic_retain (id : PatternId) : Atomic (retain id) p :=
  Atomic.node_bind fun _ _ => Atomic.modify _

theorem atomic_release (id : PatternId) : Atomic (release id) p :=
  Atomic.node_bind fun _ _ => Atomic.check (Atomic.modify _)

theorem atomic_canonicalize (id : PatternId) : Atomic (canonicalize id) p :=
  Atomic.node_bind fun _ _ => Atomic.of_succeeds (P := fun _ _ => True) ⟨_, _, rfl, trivial⟩

/-- After the canonical pattern has been found nothing fails: the pattern that is to give way is
still there. -/
theorem atomic_mutatingCanonicalize (hp : p.WellFormed) (id : PatternId) :
    Atomic (mutatingCanonicalize id) p := by
  cases hid : p.contains id with
  | false =>
    intro error q hfail
    unfold mutatingCanonicalize at hfail
    change EStateM.bind (canonicalize id) _ p = _ at hfail
    rw [EStateM.bind, canonicalize_eq_error hid] at hfail
    cases hfail
    rfl
  | true =>
    obtain ⟨c, shared, hrun, hrefines, -⟩ := canonicalize_spec hp hid
    exact Atomic.of_succeeds (Succeeds.of_eq (P := fun _ _ => True)
      (mutatingCanonicalize_eq hrun (hrefines.contains hid)) trivial)

/-! ## Edits that succeed -/

def Live (ids : List PatternId) (p : Pool) : Prop := ∀ s ∈ ids, p.contains s = true

theorem live_nil : Live [] p := fun _ hs => absurd hs List.not_mem_nil

/-- A new pattern stands beside those that it is built from, and these stay. -/
theorem succeeds_insert_live (hids : Live ids p) (hsubs : ∀ s ∈ k.subs, s ∈ ids) :
    Succeeds (insert k) p fun c q => Live (c :: ids) q := by
  refine Succeeds.of_eq (insert_eq_ok fun s hs => hids s (hsubs s hs)) fun s hs => ?_
  exact (contains_add s).2 ((List.mem_cons.1 hs).imp_right (hids s))

theorem succeeds_lit_live (h : bytes ≠ []) (hids : Live ids p) :
    Succeeds (lit bytes) p fun c q => Live (c :: ids) q := by
  rw [lit_eq_insert h]
  exact succeeds_insert_live hids fun _ hs => absurd hs List.not_mem_nil

theorem succeeds_startingWith (h : bytes ≠ []) :
    Succeeds (startingWith bytes) p fun _ _ => True := by
  refine (succeeds_insert_live live_nil (by simp [Kind.subs])).bind fun start q hstart => ?_
  refine (succeeds_lit_live h hstart).bind fun body r hbody => ?_
  exact (succeeds_insert_live hbody (by simp [Kind.subs])).mono fun _ _ _ => trivial

theorem succeeds_equalTo (h : bytes ≠ []) : Succeeds (equalTo bytes) p fun _ _ => True := by
  refine (succeeds_insert_live live_nil (by simp [Kind.subs])).bind fun start q hstart => ?_
  refine (succeeds_lit_live h hstart).bind fun body r hbody => ?_
  refine (succeeds_insert_live hbody (by simp [Kind.subs])).bind fun stop t hstop => ?_
  exact (succeeds_insert_live hstop (by simp [Kind.subs])).mono fun _ _ _ => trivial

/-- The literal comes first: there is nothing to leave behind if it is refused. -/
theorem atomic_endingWith (bytes : List UInt8) : Atomic (endingWith bytes) p := by
  by_cases h : bytes = []
  · subst h
    exact Atomic.throw _
  · refine Atomic.of_succeeds (P := fun _ _ => True) ?_
    refine (succeeds_lit_live h live_nil).bind fun body q hbody => ?_
    refine (succeeds_insert_live hbody (by simp [Kind.subs])).bind fun stop r hstop => ?_
    exact (succeeds_insert_live hstop (by simp [Kind.subs])).mono fun _ _ _ => trivial

end Edit

/-! ## Commands -/

namespace Command

def error? : Command → Pool → Option PatternError
  | literal l lead => (Edit.literal l lead).error?
  | lit bytes => (Edit.lit bytes).error?
  | litNocase bytes => (Edit.litNocase bytes).error?
  | any bits => (Edit.any bits).error?
  | range lo hi => (Edit.range lo hi).error?
  | anchor a => (Edit.anchor a).error?
  | alt subs => (Edit.alt subs).error?
  | seq subs => (Edit.seq subs).error?
  | rep sub counts => (Edit.rep sub counts).error?
  | ctx domain sub => (Edit.ctx domain sub).error?
  | startingWith bytes => (Edit.startingWith bytes).error?
  | endingWith bytes => (Edit.endingWith bytes).error?
  | equalTo bytes => (Edit.equalTo bytes).error?
  | digit => Edit.digit.error?
  | hexDigit => Edit.hexDigit.error?
  | letter => Edit.letter.error?
  | identifier => Edit.identifier.error?
  | pushSub multi sub => (Edit.pushSub multi sub).error?
  | setName id name => (Edit.setName id name).error?
  | setDoc id doc => (Edit.setDoc id doc).error?
  | setFormat id format => (Edit.setFormat id format).error?
  | setUnit id unit => (Edit.setUnit id unit).error?
  | setMatcher id matcher => (Edit.setMatcher id matcher).error?
  | setGrowthBits _ => fun _ => none
  | detectMatchers id => (Edit.detectMatchers id).error?
  | retain id => (Edit.retain id).error?
  | release id => (Edit.release id).error?
  | sweep => Edit.sweep.error?
  | canonicalize id => (Edit.canonicalize id).error?
  | mutatingCanonicalize id => (Edit.mutatingCanonicalize id).error?

/-- All commands but two fail without a trace. -/
theorem apply_of_error?_eq_some {p : Pool} (hp : p.WellFormed) {c : Command} {error : PatternError}
    (h : c.error? p = some error) (hstart : c ≠ .startingWith []) (hequal : c ≠ .equalTo []) :
    c.apply p = p := by
  have hatomic : ∀ {α : Type} {e : Edit α}, Edit.Atomic e p → e.error? p = some error →
      e.after p = p :=
    fun he herror => he.after_eq herror
  cases c with
  | literal l lead => exact hatomic (Edit.atomic_literal l lead) h
  | lit bytes => exact hatomic (Edit.atomic_literal _ _) h
  | litNocase bytes => exact hatomic (Edit.atomic_literal _ _) h
  | any bits => exact hatomic (Edit.atomic_any bits) h
  | range lo hi => exact hatomic (Edit.atomic_range lo hi) h
  | anchor a => cases h
  | alt subs => exact hatomic (Edit.Atomic.insert _) h
  | seq subs => exact hatomic (Edit.Atomic.insert _) h
  | rep sub counts => exact hatomic (Edit.atomic_rep sub counts) h
  | ctx domain sub => exact hatomic (Edit.atomic_ctx domain sub) h
  | startingWith bytes =>
    have hbytes : bytes ≠ [] := fun hnil => hstart (congrArg _ hnil)
    exact hatomic (Edit.Atomic.of_succeeds (Edit.succeeds_startingWith hbytes)) h
  | endingWith bytes => exact hatomic (Edit.atomic_endingWith bytes) h
  | equalTo bytes =>
    have hbytes : bytes ≠ [] := fun hnil => hequal (congrArg _ hnil)
    exact hatomic (Edit.Atomic.of_succeeds (Edit.succeeds_equalTo hbytes)) h
  | digit => exact hatomic (Edit.Atomic.of_succeeds (succeeds_build hp .digit)) h
  | hexDigit => exact hatomic (Edit.Atomic.of_succeeds (succeeds_build hp .hexDigit)) h
  | letter => exact hatomic (Edit.Atomic.of_succeeds (succeeds_build hp .letter)) h
  | identifier => exact hatomic (Edit.Atomic.of_succeeds (succeeds_build hp .identifier)) h
  | pushSub multi sub => exact hatomic (Edit.atomic_pushSub multi sub) h
  | setName id name => exact hatomic (Edit.Atomic.annotate id _) h
  | setDoc id doc => exact hatomic (Edit.Atomic.annotate id _) h
  | setFormat id format => exact hatomic (Edit.Atomic.annotate id _) h
  | setUnit id unit => exact hatomic (Edit.Atomic.annotate id _) h
  | setMatcher id matcher => exact hatomic (Edit.Atomic.annotate id _) h
  | setGrowthBits bits => cases h
  | detectMatchers id => cases h
  | retain id => exact hatomic (Edit.atomic_retain id) h
  | release id => exact hatomic (Edit.atomic_release id) h
  | sweep => cases h
  | canonicalize id => exact hatomic (Edit.atomic_canonicalize id) h
  | mutatingCanonicalize id => exact hatomic (Edit.atomic_mutatingCanonicalize hp id) h

end Command

namespace Pool

/-- A new pattern has neither holders nor supers. -/
theorem isOrphan_add {p : Pool} {k : Kind PatternId} (hsubs : ∀ s ∈ k.subs, p.contains s = true) :
    (p.add k).2.isOrphan p.fresh = true := by
  have hfresh : p.contains p.fresh = false := by rw [contains, get?_fresh, Option.isSome_none]
  refine isOrphan_iff.2 ⟨(contains_add _).2 (Or.inl rfl), ?_, ?_⟩
  · rw [roots_add, roots_eq_zero hfresh]
  · rw [supers_add p hsubs, if_neg fun hmem => ne_fresh_of_contains (hsubs _ hmem) rfl, supers,
      get?_fresh]
    rfl

/-- Where an operation on a pool with a history fails, the pool is as it was: patterns and all that
is known about them, holders, matchers, representatives, and the identifier that is given out next.
The exceptions are the patterns of the beginning of a buffer, or of all of it, for no bytes: these
fail for the lack of a literal, and leave behind one more pattern, an anchor that is an orphan. -/
theorem run_failure (cs : List Command) (c : Command) (error : PatternError)
    (h : c.error? (run cs) = some error) :
    let p := run cs
    (c ≠ .startingWith [] → c ≠ .equalTo [] → c.apply p = p) ∧
      (c = .startingWith [] ∨ c = .equalTo [] →
        error = .emptyLiteral ∧ c.apply p = (p.add (.anchor .bufferStart)).2 ∧
          (c.apply p).isOrphan p.fresh = true) := by
  intro p
  refine ⟨Command.apply_of_error?_eq_some (wellFormed_run cs) h, fun hc => ?_⟩
  have horphan : (p.add (.anchor .bufferStart)).2.isOrphan p.fresh = true :=
    isOrphan_add fun _ hs => absurd hs List.not_mem_nil
  rcases hc with rfl | rfl
  · exact ⟨(Option.some.inj h).symm, rfl, horphan⟩
  · exact ⟨(Option.some.inj h).symm, rfl, horphan⟩

/-- A sequence is not put under an alternation that is under it. -/
theorem run_failure_cycle :
    (Command.pushSub ⟨1⟩ ⟨2⟩).error? (run [.lit [97], .alt [⟨0⟩], .seq [⟨1⟩]]) =
      some (.cycle ⟨1⟩ ⟨2⟩) ∧
      (Command.pushSub ⟨1⟩ ⟨2⟩).apply (run [.lit [97], .alt [⟨0⟩], .seq [⟨1⟩]]) =
        run [.lit [97], .alt [⟨0⟩], .seq [⟨1⟩]] := by
  have hfails : (Command.pushSub ⟨1⟩ ⟨2⟩).error? (run [.lit [97], .alt [⟨0⟩], .seq [⟨1⟩]]) =
      some (.cycle ⟨1⟩ ⟨2⟩) := by decide
  exact ⟨hfails, (run_failure _ _ _ hfails).1 Command.noConfusion Command.noConfusion⟩

/-- No bytes at the beginning are refused with an anchor left behind, no bytes at the end without a
trace. -/
theorem startingWith_leaves_anchor :
    (Command.startingWith []).error? (run []) = some .emptyLiteral ∧
      ((Command.startingWith []).apply (run [])).ids = [⟨0⟩] ∧ (run []).ids = [] ∧
      (Command.endingWith []).error? (run []) = some .emptyLiteral ∧
      ((Command.endingWith []).apply (run [])).ids = [] := by
  decide

end Pool

end Sigil
