import LiveTemplate.Forest.Edit
import LiveTemplate.Forest.Lemmas
import Mathlib.Data.List.Nodup
import Mathlib.Logic.Relation

/-!
# Forests whose links agree

The links of a forest run both ways: a node names its parent, and the parent lists it among its
children.  A forest is linked when the two agree, when no node is listed twice or is a child of
itself, and when fragments stand alone.  In a linked forest the lists of children say everything
about how nodes hang together, so the effect of an edit is stated by giving those lists:
`Relinked f f' ch` says that `f'` has the nodes of `f` and lists the children `ch`.

The edits of a forest succeed on nodes that exist, as long as no node is put into itself and
fragments are left alone.  Their effects are `relinked_detach`, `relinked_insertBefore`,
`relinked_insertLast`, `relinked_removeChild` and `relinked_replaceChild_moved`.  An edit that goes
by a node that is no child fails (`insertBefore_of_not_mem`, `replaceChild_of_not_mem`,
`removeChild_of_not_mem`).
-/

namespace LiveTemplate

set_option autoImplicit false

/-! ## Lists without some of their entries -/

section Without

variable {α : Type} [DecidableEq α]

theorem filter_not_mem_nil (l : List α) : l.filter (· ∉ ([] : List α)) = l := by
  simp

theorem filter_not_mem_cons (a : α) (gone l : List α) :
    l.filter (· ∉ a :: gone) = (l.filter (· ≠ a)).filter (· ∉ gone) := by
  rw [List.filter_filter]
  refine List.filter_congr fun b _ => ?_
  by_cases hb : b = a <;> simp [hb]

theorem filter_not_mem_singleton (a : α) (l : List α) : l.filter (· ∉ [a]) = l.filter (· ≠ a) := by
  rw [filter_not_mem_cons, filter_not_mem_nil]

theorem filter_not_mem_append (gone more l : List α) :
    l.filter (· ∉ gone ++ more) = (l.filter (· ∉ gone)).filter (· ∉ more) := by
  rw [List.filter_filter]
  refine List.filter_congr fun b _ => ?_
  by_cases hb : b ∈ gone <;> simp [hb]

theorem filter_not_mem_of_disjoint {gone l : List α} (h : ∀ a ∈ l, a ∉ gone) :
    l.filter (· ∉ gone) = l := by
  rw [List.filter_eq_self]
  intro a ha
  simpa using h a ha

theorem filter_ne_of_not_mem {a : α} {l : List α} (h : a ∉ l) : l.filter (· ≠ a) = l := by
  rw [List.filter_eq_self]
  intro b hb
  simpa using fun e : b = a => h (e ▸ hb)

end Without

/-! ## Running computations that may fail half-way -/

section Running

variable {ε σ α β : Type}

/-- A computation that goes on after a successful one goes on from what that one left. -/
theorem bind_of_ok {x : EStateM ε σ α} {g : α → EStateM ε σ β} {s s' : σ} {a : α}
    (h : x s = .ok a s') : (x >>= g) s = g a s' := by
  show EStateM.bind x g s = _
  unfold EStateM.bind
  rw [h]

/-- A computation ends where it fails. -/
theorem bind_of_error {x : EStateM ε σ α} {g : α → EStateM ε σ β} {s s' : σ} {e : ε}
    (h : x s = .error e s') : (x >>= g) s = .error e s' := by
  show EStateM.bind x g s = _
  unfold EStateM.bind
  rw [h]

/-- A computation in two parts succeeds when both do. -/
theorem exists_of_bind_ok {x : EStateM ε σ α} {g : α → EStateM ε σ β} {s s' : σ} {b : β}
    (h : (x >>= g) s = .ok b s') : ∃ a s₁, x s = .ok a s₁ ∧ g a s₁ = .ok b s' := by
  cases hx : x s with
  | error e s₁ =>
      rw [bind_of_error hx] at h
      exact nomatch h
  | ok a s₁ =>
      rw [bind_of_ok hx] at h
      exact ⟨a, s₁, rfl, h⟩

/-- Reading the state changes nothing. -/
theorem get_ok (s : σ) : (get : EStateM ε σ σ) s = .ok s s := rfl

/-- A change of the state succeeds. -/
theorem modify_ok (change : σ → σ) (s : σ) :
    (modify change : EStateM ε σ PUnit) s = .ok () (change s) := rfl

end Running

/-- Looking at a forest changes nothing. -/
theorem look_of_ok {α : Type} {view : Forest → Except Fault α} {f : Forest} {a : α}
    (h : view f = .ok a) : Edit.look view f = .ok a f := by
  unfold Edit.look
  rw [bind_of_ok (get_ok f)]
  generalize view f = seen at h ⊢
  rw [h]
  rfl

/-- A look that fails changes nothing either. -/
theorem look_of_error {α : Type} {view : Forest → Except Fault α} {f : Forest} {fault : Fault}
    (h : view f = .error fault) : Edit.look view f = .error fault f := by
  unfold Edit.look
  rw [bind_of_ok (get_ok f)]
  generalize view f = seen at h ⊢
  rw [h]
  rfl

/-! ## Kinds of nodes -/

namespace Forest

variable {f f' : Forest} {n m p q : NodeId}

/-- What a node is, apart from its place. -/
def kind? (f : Forest) (n : NodeId) : Option NodeKind := (f.node? n).map (·.kind)

/-- The forest with one more mutation counted. -/
def counted (f : Forest) : Forest :=
  { f with tally := { f.tally with mutations := f.tally.mutations + 1 } }

theorem isFragment_eq (f : Forest) (n : NodeId) :
    f.isFragment n = decide (f.kind? n = some .fragment) := by
  unfold isFragment kind?
  cases h : f.node? n with
  | none => rfl
  | some x =>
      obtain ⟨kind, parent, children⟩ := x
      cases kind <;> simp

theorem leaf?_eq (f : Forest) (n : NodeId) :
    f.leaf? n = (f.kind? n).bind fun | .leaf l => some l | _ => none := by
  unfold leaf? kind?
  cases h : f.node? n with
  | none => rfl
  | some x =>
      obtain ⟨kind, parent, children⟩ := x
      cases kind <;> rfl

theorem element?_eq (f : Forest) (n : NodeId) :
    f.element? n = (f.kind? n).bind fun | .element e => some e | _ => none := by
  unfold element? kind?
  cases h : f.node? n with
  | none => rfl
  | some x =>
      obtain ⟨kind, parent, children⟩ := x
      cases kind <;> rfl

theorem isFragment_congr (h : f'.kind? n = f.kind? n) : f'.isFragment n = f.isFragment n := by
  rw [isFragment_eq, isFragment_eq, h]

theorem text?_congr (h : f'.kind? n = f.kind? n) : f'.text? n = f.text? n := by
  unfold text?
  rw [leaf?_eq, leaf?_eq, h]

theorem element?_congr (h : f'.kind? n = f.kind? n) : f'.element? n = f.element? n := by
  rw [element?_eq, element?_eq, h]

theorem lt_nextId_of_isFragment (h : f.isFragment n = true) : n < f.nextId := by
  refine Nat.lt_of_not_le fun hle => ?_
  rw [isFragment, node?_eq_none_iff.mpr hle] at h
  exact nomatch h

theorem lt_nextId_of_kind? {kind : NodeKind} (h : f.kind? n = some kind) : n < f.nextId := by
  refine Nat.lt_of_not_le fun hle => ?_
  rw [kind?, node?_eq_none_iff.mpr hle] at h
  exact nomatch h

theorem not_isFragment_of_text? {t : String} (h : f.text? n = some t) : f.isFragment n = false := by
  unfold text? leaf? at h
  unfold isFragment
  cases hn : f.node? n with
  | none => rfl
  | some x =>
      obtain ⟨kind, parent, children⟩ := x
      cases kind with
      | fragment =>
          rw [hn] at h
          exact nomatch h
      | element e => rfl
      | leaf l => rfl

theorem lt_nextId_of_text? {t : String} (h : f.text? n = some t) : n < f.nextId := by
  refine Nat.lt_of_not_le fun hle => ?_
  rw [text?, leaf?, node?_eq_none_iff.mpr hle] at h
  exact nomatch h

theorem lt_nextId_of_parent? (h : f.parent? n = some p) : n < f.nextId := by
  refine Nat.lt_of_not_le fun hle => ?_
  rw [parent?, node?_eq_none_iff.mpr hle] at h
  cases h

theorem children_of_nextId_le (h : f.nextId ≤ n) : f.children n = [] := by
  rw [children, node?_eq_none_iff.mpr h]
  rfl

theorem lt_nextId_of_mem_children (h : n ∈ f.children p) : p < f.nextId := by
  refine Nat.lt_of_not_le fun hle => ?_
  rw [children_of_nextId_le hle] at h
  exact nomatch h

/-! ## Links that agree -/

/-- A forest in which parents and children name each other, no child is listed twice, no node is
its own child, and no fragment is a child at all. -/
structure Linked (f : Forest) : Prop where
  mem_children_iff : ∀ {n p : NodeId}, n ∈ f.children p ↔ f.parent? n = some p
  nodup_children : ∀ p, (f.children p).Nodup
  not_own_parent : ∀ n, f.parent? n ≠ some n
  alone_of_isFragment : ∀ {n : NodeId}, f.isFragment n = true → f.parent? n = none

/-- `f'` has the nodes of `f`, linked so that `ch` lists the children of every node. -/
structure Relinked (f f' : Forest) (ch : NodeId → List NodeId) : Prop where
  linked : f'.Linked
  children_eq : ∀ q, f'.children q = ch q
  kind?_eq : ∀ n, f'.kind? n = f.kind? n
  nextId_eq : f'.nextId = f.nextId
  partsMade_eq : f'.partsMade = f.partsMade

namespace Linked

theorem lt_nextId (hf : f.Linked) (h : n ∈ f.children p) : n < f.nextId :=
  lt_nextId_of_parent? (hf.mem_children_iff.mp h)

/-- A node has one parent. -/
theorem parent_unique (hf : f.Linked) (hp : n ∈ f.children p) (hq : n ∈ f.children q) :
    p = q := by
  have h := (hf.mem_children_iff.mp hp).symm.trans (hf.mem_children_iff.mp hq)
  exact Option.some.inj h

theorem not_isFragment (hf : f.Linked) (h : n ∈ f.children p) : f.isFragment n = false := by
  rw [Bool.eq_false_iff]
  intro hn
  rw [hf.mem_children_iff, hf.alone_of_isFragment hn] at h
  exact nomatch h

theorem ne_of_mem_children (hf : f.Linked) (h : n ∈ f.children p) : n ≠ p := by
  rintro rfl
  exact hf.not_own_parent n (hf.mem_children_iff.mp h)

/-- The lists of children say which node is whose parent. -/
theorem parent?_congr (hf : f.Linked) (hf' : f'.Linked)
    (h : ∀ q, f'.children q = f.children q) (n : NodeId) : f'.parent? n = f.parent? n := by
  refine Option.ext fun q => ?_
  rw [← hf'.mem_children_iff, ← hf.mem_children_iff, h]

theorem counted (hf : f.Linked) : f.counted.Linked :=
  ⟨hf.mem_children_iff, hf.nodup_children, hf.not_own_parent, hf.alone_of_isFragment⟩

end Linked

namespace Relinked

variable {f'' : Forest} {ch ch' : NodeId → List NodeId}

theorem refl (hf : f.Linked) : Relinked f f f.children :=
  ⟨hf, fun _ => rfl, fun _ => rfl, rfl, rfl⟩

theorem trans (h : Relinked f f' ch) (h' : Relinked f' f'' ch') : Relinked f f'' ch' :=
  ⟨h'.linked, h'.children_eq, fun n => (h'.kind?_eq n).trans (h.kind?_eq n),
    h'.nextId_eq.trans h.nextId_eq, h'.partsMade_eq.trans h.partsMade_eq⟩

theorem congr (h : Relinked f f' ch) (he : ∀ q, ch q = ch' q) : Relinked f f' ch' :=
  ⟨h.linked, fun q => (h.children_eq q).trans (he q), h.kind?_eq, h.nextId_eq, h.partsMade_eq⟩

theorem isFragment_eq (h : Relinked f f' ch) (n : NodeId) : f'.isFragment n = f.isFragment n :=
  isFragment_congr (h.kind?_eq n)

theorem text?_eq (h : Relinked f f' ch) (n : NodeId) : f'.text? n = f.text? n :=
  text?_congr (h.kind?_eq n)

end Relinked

/-! ## Looking at the links of a given forest -/

/-- Whether a forest is linked is found by looking at each of its nodes. -/
theorem linked_iff : f.Linked ↔
    (∀ p, p < f.nextId → (f.children p).Nodup ∧ ∀ n ∈ f.children p, f.parent? n = some p) ∧
    ∀ n, n < f.nextId → (∀ p ∈ f.parent? n, n ∈ f.children p ∧ n ≠ p) ∧
      (f.isFragment n = true → f.parent? n = none) := by
  constructor
  · intro hf
    refine ⟨fun p _ => ⟨hf.nodup_children p, fun n hn => hf.mem_children_iff.mp hn⟩,
      fun n _ => ⟨fun p hp => ⟨hf.mem_children_iff.mpr hp, ?_⟩, hf.alone_of_isFragment⟩⟩
    exact hf.ne_of_mem_children (hf.mem_children_iff.mpr hp)
  · rintro ⟨hdown, hup⟩
    refine ⟨?_, ?_, ?_, ?_⟩
    · intro n p
      constructor
      · intro hn
        exact (hdown p (lt_nextId_of_mem_children hn)).2 n hn
      · intro hp
        exact ((hup n (lt_nextId_of_parent? hp)).1 p hp).1
    · intro p
      by_cases hp : p < f.nextId
      · exact (hdown p hp).1
      · rw [children_of_nextId_le (Nat.le_of_not_lt hp)]
        exact List.nodup_nil
    · intro n hn
      exact ((hup n (lt_nextId_of_parent? hn)).1 n hn).2 rfl
    · intro n hn
      exact (hup n (lt_nextId_of_isFragment hn)).2 hn

instance (f : Forest) : Decidable f.Linked := decidable_of_iff _ linked_iff.symm

/-- The node `a` is somewhere above the node `n`. -/
def Above (f : Forest) (a n : NodeId) : Prop :=
  Relation.TransGen (fun a n => f.parent? n = some a) a n

theorem above_iff {a : NodeId} :
    f.Above a n ↔ ∃ p, f.parent? n = some p ∧ (a = p ∨ f.Above a p) := by
  constructor
  · intro h
    cases h with
    | single h => exact ⟨a, h, .inl rfl⟩
    | tail h hp => exact ⟨_, hp, .inr h⟩
  · rintro ⟨p, hp, rfl | h⟩
    · exact .single hp
    · exact .tail h hp

theorem not_above_of_alone {a : NodeId} (h : f.parent? n = none) : ¬ f.Above a n := by
  rw [above_iff, h]
  rintro ⟨p, hp, -⟩
  exact nomatch hp

theorem not_above_of_parent? {a : NodeId} (hp : f.parent? n = some p) (hne : a ≠ p)
    (h : ¬ f.Above a p) : ¬ f.Above a n := by
  rw [above_iff]
  rintro ⟨q, hq, habove⟩
  obtain rfl : q = p := Option.some.inj (hq.symm.trans hp)
  exact habove.elim hne h

/-! ## Taking out and putting in -/

theorem children_detach_eq_filter (hf : f.Linked) (n q : NodeId) :
    (f.detach n).children q = (f.children q).filter (· ≠ n) := by
  cases hp : f.parent? n with
  | none =>
      have hn : n ∉ f.children q := by
        rw [hf.mem_children_iff, hp]
        exact nofun
      rw [detach_of_parent?_eq_none hp, filter_ne_of_not_mem hn]
  | some p =>
      rw [children_detach hp]
      by_cases hq : q = p
      · rw [if_pos hq, (hf.nodup_children q).erase_eq_filter]
        exact List.filter_congr fun m _ => by by_cases h : m = n <;> simp [h]
      · rw [if_neg hq, filter_ne_of_not_mem]
        rw [hf.mem_children_iff, hp]
        exact fun e => hq (Option.some.inj e).symm

/-- A node that is taken out leaves the list it stood in. -/
theorem relinked_detach (hf : f.Linked) (n : NodeId) :
    Relinked f (f.detach n) fun q => (f.children q).filter (· ≠ n) where
  children_eq := children_detach_eq_filter hf n
  kind?_eq := fun _ => kind_detach
  nextId_eq := nextId_detach f n
  partsMade_eq := by
    unfold Forest.detach
    cases f.parent? n <;> rfl
  linked :=
    { mem_children_iff := by
        intro m q
        rw [children_detach_eq_filter hf, parent?_detach, List.mem_filter, hf.mem_children_iff]
        by_cases hm : m = n
        · simp [hm]
        · have hm' : ¬ n = m := fun e => hm e.symm
          simp [hm, hm']
      nodup_children := by
        intro q
        rw [children_detach_eq_filter hf]
        exact (hf.nodup_children q).filter _
      not_own_parent := by
        intro m
        rw [parent?_detach]
        by_cases hm : n = m
        · simp [hm]
        · rw [if_neg hm]
          exact hf.not_own_parent m
      alone_of_isFragment := by
        intro m hm
        rw [isFragment_congr kind_detach] at hm
        rw [parent?_detach, hf.alone_of_isFragment hm, ite_self] }

/-- A node that stands alone joins the children of its new parent. -/
theorem relinked_attach {place : Nat} (hf : f.Linked) (hn : n < f.nextId) (hp : p < f.nextId)
    (hnp : n ≠ p) (hfragment : f.isFragment n = false) (halone : f.parent? n = none)
    (hplace : place ≤ (f.children p).length) :
    Relinked f (f.attach p place n) fun q =>
      if q = p then (f.children q).insertIdx place n else f.children q where
  children_eq := fun _ => children_attach hp
  kind?_eq := fun _ => kind_attach
  nextId_eq := nextId_attach f p place n
  partsMade_eq := rfl
  linked := by
    have hout : ∀ q, n ∉ f.children q := by
      intro q hq
      rw [hf.mem_children_iff, halone] at hq
      exact nomatch hq
    refine ⟨?_, ?_, ?_, ?_⟩
    · intro m q
      rw [children_attach hp, parent?_attach hn]
      by_cases hq : q = p
      · rw [if_pos hq, List.mem_insertIdx (hq ▸ hplace), hf.mem_children_iff]
        by_cases hm : n = m
        · simp [hm, hq]
        · have hm' : ¬ m = n := fun e => hm e.symm
          simp [hm, hm']
      · rw [if_neg hq]
        by_cases hm : n = m
        · have hq' : ¬ p = q := fun e => hq e.symm
          simp [← hm, hout, hq']
        · rw [if_neg hm, hf.mem_children_iff]
    · intro q
      rw [children_attach hp]
      by_cases hq : q = p
      · rw [if_pos hq, (List.perm_insertIdx n (f.children q) (hq ▸ hplace)).nodup_iff,
          List.nodup_cons]
        exact ⟨hout q, hf.nodup_children q⟩
      · rw [if_neg hq]
        exact hf.nodup_children q
    · intro m
      rw [parent?_attach hn]
      by_cases hm : n = m
      · simpa [hm] using fun e : p = m => hnp (hm.trans e.symm)
      · rw [if_neg hm]
        exact hf.not_own_parent m
    · intro m hm
      rw [isFragment_congr kind_attach] at hm
      have hne : ¬ n = m := by
        rintro rfl
        rw [hfragment] at hm
        exact nomatch hm
      rw [parent?_attach hn, if_neg hne, hf.alone_of_isFragment hm]

/-! ## Positions among siblings -/

theorem findIdx?_eq_length {c : NodeId} {before behind : List NodeId} (hc : c ∉ before) :
    (before ++ c :: behind).findIdx? (· == c) = some before.length := by
  induction before with
  | nil => simp [List.findIdx?_cons]
  | cons m before ih =>
      have hm : ¬ m = c := fun e => hc (by simp [e])
      have hbefore : c ∉ before := fun e => hc (by simp [e])
      rw [List.cons_append, List.findIdx?_cons, ih hbefore]
      simp [hm]

theorem insertIdx_length_append (n : NodeId) (before behind : List NodeId) :
    (before ++ behind).insertIdx before.length n = before ++ n :: behind := by
  induction before with
  | nil => simp
  | cons m before ih => simp [ih]

theorem dropWhile_ne_append {n : NodeId} {before behind : List NodeId} (hn : n ∉ before) :
    (before ++ n :: behind).dropWhile (· != n) = n :: behind := by
  induction before with
  | nil => simp
  | cons m before ih =>
      have hm : ¬ m = n := fun e => hn (by simp [e])
      have hbefore : n ∉ before := fun e => hn (by simp [e])
      simp [hm, ih hbefore]

/-- The siblings behind a node are those that its parent lists behind it. -/
theorem Linked.after_eq {before behind : List NodeId} (hf : f.Linked)
    (hp : f.children p = before ++ n :: behind) : f.after n = behind := by
  have hmem : n ∈ f.children p := by simp [hp]
  have hn : n ∉ before := by
    have hnodup := hf.nodup_children p
    rw [hp, List.nodup_append] at hnodup
    exact fun hb => hnodup.2.2 n hb n (by simp) rfl
  unfold after
  rw [hf.mem_children_iff.mp hmem]
  show ((f.children p).dropWhile (· != n)).drop 1 = behind
  rw [hp, dropWhile_ne_append hn]
  rfl

/-! ## The counted edits -/

theorem detach_ok (n : NodeId) (f : Forest) : Edit.detach n f = .ok () (f.detach n) := rfl

theorem countMutation_ok (f : Forest) : Edit.countMutation f = .ok () f.counted := rfl

theorem grow_ok (kind : NodeKind) (f : Forest) :
    Edit.grow kind f = .ok f.nextId (f.grow kind) := rfl

/-- Putting a node at a position of another parent is attaching it there. -/
theorem insert_of_alone {place : Nat} (hnp : n ≠ p) (hfragment : f.isFragment n = false)
    (halone : f.parent? n = none) (hplace : place ≤ (f.children p).length) :
    Edit.insert p place n f = .ok () (f.attach p place n) := by
  unfold Edit.insert
  rw [bind_of_ok (get_ok f), if_neg hnp, if_neg (by
    simp [hfragment])]
  unfold Edit.insertNode
  rw [bind_of_ok (get_ok f)]
  simp only [if_neg hnp, halone, reduceCtorEq, if_false, Nat.min_eq_left hplace]
  rw [bind_of_ok (detach_ok n f),
    detach_of_parent?_eq_none halone]
  rfl

/-- A node is moved in front of a child of its new parent. -/
theorem relinked_insertBefore {c : NodeId} {before behind : List NodeId} (hf : f.Linked)
    (hp : f.children p = before ++ c :: behind) (hnc : n ≠ c) (hnp : n ≠ p) (hn : n < f.nextId)
    (hfragment : f.isFragment n = false) :
    ∃ f', Edit.insertBefore p n (some c) f = .ok () f' ∧ Relinked f f' fun q =>
      if q = p then before.filter (· ≠ n) ++ n :: c :: behind.filter (· ≠ n)
      else (f.children q).filter (· ≠ n) := by
  have hout := relinked_detach hf.counted n
  have hchildren : (f.counted.detach n).children p
      = before.filter (· ≠ n) ++ c :: behind.filter (· ≠ n) := by
    rw [hout.children_eq]
    show (f.children p).filter _ = _
    rw [hp, List.filter_append, List.filter_cons_of_pos (by simpa using hnc.symm)]
  have hc : c ∉ before.filter (· ≠ n) := by
    have hnodup := hout.linked.nodup_children p
    rw [hchildren, List.nodup_append] at hnodup
    exact fun hb => hnodup.2.2 c hb c (by simp) rfl
  have hplace : (before.filter (· ≠ n)).length ≤ ((f.counted.detach n).children p).length := by
    rw [hchildren, List.length_append]
    exact Nat.le_add_right _ _
  have hkept : (f.counted.detach n).isFragment n = false :=
    (hout.isFragment_eq n).trans hfragment
  have halone : (f.counted.detach n).parent? n = none := by
    rw [parent?_detach, if_pos rfl]
  have hposition : Edit.position p c (f.counted.detach n)
      = .ok (before.filter (· ≠ n)).length (f.counted.detach n) := by
    apply look_of_ok
    rw [hchildren, findIdx?_eq_length hc]
  refine ⟨(f.counted.detach n).attach p (before.filter (· ≠ n)).length n, ?_, ?_⟩
  · unfold Edit.insertBefore
    rw [bind_of_ok (countMutation_ok f),
      bind_of_ok (detach_ok n f.counted)]
    show (Edit.position p c >>= fun place => Edit.insert p place n) _ = _
    rw [bind_of_ok hposition, insert_of_alone hnp hkept halone hplace]
  · have hlt : p < f.nextId := lt_nextId_of_mem_children (n := c) (by simp [hp])
    have hin := relinked_attach hout.linked (by rwa [hout.nextId_eq])
      (by rwa [hout.nextId_eq]) hnp hkept halone hplace
    have hwhole : Relinked f (f.counted.detach n) fun q => (f.children q).filter (· ≠ n) :=
      ⟨hout.linked, hout.children_eq, hout.kind?_eq, hout.nextId_eq, hout.partsMade_eq⟩
    refine (hwhole.trans hin).congr fun q => ?_
    by_cases hq : q = p
    · rw [if_pos hq, if_pos hq, hq, hchildren, insertIdx_length_append]
    · rw [if_neg hq, if_neg hq, hwhole.children_eq]

/-- A node is moved behind all children of its new parent. -/
theorem relinked_insertLast (hf : f.Linked) (hp : p < f.nextId) (hnp : n ≠ p)
    (hn : n < f.nextId) (hfragment : f.isFragment n = false) :
    ∃ f', Edit.insertBefore p n none f = .ok () f' ∧ Relinked f f' fun q =>
      (f.children q).filter (· ≠ n) ++ if q = p then [n] else [] := by
  have hout := relinked_detach hf.counted n
  have hkept : (f.counted.detach n).isFragment n = false :=
    (hout.isFragment_eq n).trans hfragment
  have halone : (f.counted.detach n).parent? n = none := by
    rw [parent?_detach, if_pos rfl]
  refine ⟨(f.counted.detach n).attachLast p n, ?_, ?_⟩
  · unfold Edit.insertBefore
    rw [bind_of_ok (countMutation_ok f),
      bind_of_ok (detach_ok n f.counted)]
    show ((get : Edit Forest) >>= fun g => Edit.insert p (g.children p).length n) _ = _
    rw [bind_of_ok (get_ok _),
      insert_of_alone hnp hkept halone (Nat.le_refl _)]
    rfl
  · have hin := relinked_attach (p := p) hout.linked (by rwa [hout.nextId_eq])
      (by rwa [hout.nextId_eq]) hnp hkept halone (Nat.le_refl _)
    have hwhole : Relinked f (f.counted.detach n) fun q => (f.children q).filter (· ≠ n) :=
      ⟨hout.linked, hout.children_eq, hout.kind?_eq, hout.nextId_eq, hout.partsMade_eq⟩
    unfold attachLast
    refine (hwhole.trans hin).congr fun q => ?_
    by_cases hq : q = p
    · rw [if_pos hq, if_pos hq, hq, List.insertIdx_length_self, hwhole.children_eq]
    · rw [if_neg hq, if_neg hq, hwhole.children_eq, List.append_nil]

/-- A child is taken out of its parent. -/
theorem relinked_removeChild (hf : f.Linked) (hn : n ∈ f.children p) :
    ∃ f', Edit.removeChild p n f = .ok () f' ∧ Relinked f f' fun q =>
      (f.children q).filter (· ≠ n) := by
  have hout := relinked_detach hf.counted n
  refine ⟨f.counted.detach n, ?_, hout.linked, hout.children_eq, hout.kind?_eq, hout.nextId_eq,
    hout.partsMade_eq⟩
  unfold Edit.removeChild
  rw [bind_of_ok (countMutation_ok f),
    bind_of_ok (get_ok _),
    if_pos (show f.counted.parent? n = some p from hf.mem_children_iff.mp hn)]
  rfl

/-- A child makes way for a node that stands alone. -/
theorem relinked_takePlace {old : NodeId} {before behind : List NodeId} (hf : f.Linked)
    (hp : f.children p = before ++ old :: behind) (halone : f.parent? n = none)
    (hnp : n ≠ p) (hn : n < f.nextId) (hfragment : f.isFragment n = false) :
    ∃ f', (Edit.position p old >>= fun place => Edit.detach old >>= fun _ =>
        Edit.insert p place n) f = .ok () f' ∧
      Relinked f f' fun q => if q = p then before ++ n :: behind else f.children q := by
  have hnodup := hf.nodup_children p
  rw [hp, List.nodup_append, List.nodup_cons] at hnodup
  have hbefore : old ∉ before := fun h => hnodup.2.2 old h old (by simp) rfl
  have hposition : Edit.position p old f = .ok before.length f := by
    apply look_of_ok
    rw [hp, findIdx?_eq_length hbefore]
  have hout := relinked_detach hf old
  have hchildren : (f.detach old).children p = before ++ behind := by
    rw [hout.children_eq, hp, List.filter_append, List.filter_cons_of_neg (by simp),
      filter_ne_of_not_mem hbefore, filter_ne_of_not_mem hnodup.2.1.1]
  have hkept : (f.detach old).isFragment n = false := (hout.isFragment_eq n).trans hfragment
  have halone' : (f.detach old).parent? n = none := by
    rw [parent?_detach, halone, ite_self]
  have hplace : before.length ≤ ((f.detach old).children p).length := by
    rw [hchildren, List.length_append]
    exact Nat.le_add_right _ _
  refine ⟨(f.detach old).attach p before.length n, ?_, ?_⟩
  · rw [bind_of_ok hposition, bind_of_ok (detach_ok old f),
      insert_of_alone hnp hkept halone' hplace]
  · have hlt : p < f.nextId := lt_nextId_of_mem_children (n := old) (by simp [hp])
    have hin := relinked_attach hout.linked (by rwa [hout.nextId_eq])
      (by rwa [hout.nextId_eq]) hnp hkept halone' hplace
    refine (hout.trans hin).congr fun q => ?_
    by_cases hq : q = p
    · rw [if_pos hq, if_pos hq, hq, hchildren, insertIdx_length_append]
    · rw [if_neg hq, if_neg hq, hout.children_eq]
      refine filter_ne_of_not_mem fun hold => hq (hf.parent_unique hold (p := q) (q := p) ?_)
      simp [hp]

/-- A node that stands alone takes the place of a child. -/
theorem relinked_replaceChild {old : NodeId} {before behind : List NodeId} (hf : f.Linked)
    (hp : f.children p = before ++ old :: behind) (halone : f.parent? n = none)
    (hnp : n ≠ p) (hn : n < f.nextId) (hfragment : f.isFragment n = false) :
    ∃ f', Edit.replaceChild p n old f = .ok () f' ∧ Relinked f f' fun q =>
      if q = p then before ++ n :: behind else f.children q := by
  obtain ⟨f', hrun, hf'⟩ := relinked_takePlace hf.counted
    (show f.counted.children p = before ++ old :: behind from hp)
    (show f.counted.parent? n = none from halone) hnp hn hfragment
  refine ⟨f', ?_, hf'.linked, hf'.children_eq, hf'.kind?_eq, hf'.nextId_eq, hf'.partsMade_eq⟩
  unfold Edit.replaceChild
  rw [bind_of_ok (countMutation_ok f), bind_of_ok (detach_ok n f.counted),
    detach_of_parent?_eq_none (show f.counted.parent? n = none from halone), hrun]

/-- A node takes the place of a child, wherever it stood before. -/
theorem relinked_replaceChild_moved {old : NodeId} {before behind : List NodeId} (hf : f.Linked)
    (hp : f.children p = before ++ old :: behind) (hne : n ≠ old) (hnp : n ≠ p)
    (hn : n < f.nextId) (hfragment : f.isFragment n = false) :
    ∃ f', Edit.replaceChild p n old f = .ok () f' ∧ Relinked f f' fun q =>
      if q = p then before.filter (· ≠ n) ++ n :: behind.filter (· ≠ n)
      else (f.children q).filter (· ≠ n) := by
  have hout := relinked_detach hf.counted n
  have hchildren : (f.counted.detach n).children p
      = before.filter (· ≠ n) ++ old :: behind.filter (· ≠ n) := by
    rw [hout.children_eq]
    show (f.children p).filter _ = _
    rw [hp, List.filter_append, List.filter_cons_of_pos (by simpa using hne.symm)]
  obtain ⟨f', hrun, hf'⟩ := relinked_takePlace hout.linked hchildren
    (by rw [parent?_detach, if_pos rfl]) hnp (by rwa [hout.nextId_eq])
    ((hout.isFragment_eq n).trans hfragment)
  have hwhole : Relinked f (f.counted.detach n) fun q => (f.children q).filter (· ≠ n) :=
    ⟨hout.linked, hout.children_eq, hout.kind?_eq, hout.nextId_eq, hout.partsMade_eq⟩
  refine ⟨f', ?_, (hwhole.trans hf').congr fun q => ?_⟩
  · unfold Edit.replaceChild
    rw [bind_of_ok (countMutation_ok f), bind_of_ok (detach_ok n f.counted), hrun]
  · by_cases hq : q = p
    · rw [if_pos hq, if_pos hq]
    · rw [if_neg hq, if_neg hq, hwhole.children_eq]

/-! ## Edits that do not find their place -/

theorem position_of_not_mem {c : NodeId} (h : c ∉ f.children p) :
    Edit.position p c f = .error .notAChild f := by
  apply look_of_error
  rw [List.findIdx?_eq_none_iff.mpr fun m hm => by simpa using fun e : m = c => h (e ▸ hm)]

/-- A node cannot be a child to go by any more when it has been taken out to be moved. -/
theorem not_mem_children_detach {c : NodeId} (hf : f.Linked) (h : c = n ∨ c ∉ f.children p) :
    c ∉ (f.counted.detach n).children p := by
  rw [children_detach_eq_filter hf.counted]
  show c ∉ (f.children p).filter _
  rw [List.mem_filter]
  rintro ⟨hc, hne⟩
  rcases h with rfl | h
  · simp at hne
  · exact h hc

/-- A node that is to be moved is taken out before it turns out that there is no child to move it in
front of. -/
theorem insertBefore_of_not_mem {c : NodeId} (hf : f.Linked) (h : c = n ∨ c ∉ f.children p) :
    Edit.insertBefore p n (some c) f = .error .notAChild (f.counted.detach n) := by
  unfold Edit.insertBefore
  rw [bind_of_ok (countMutation_ok f), bind_of_ok (detach_ok n f.counted)]
  show (Edit.position p c >>= fun place => Edit.insert p place n) _ = _
  rw [bind_of_error (position_of_not_mem (not_mem_children_detach hf h))]

/-- So is a node that is to take the place of a child. -/
theorem replaceChild_of_not_mem {c : NodeId} (hf : f.Linked) (h : c = n ∨ c ∉ f.children p) :
    Edit.replaceChild p n c f = .error .notAChild (f.counted.detach n) := by
  unfold Edit.replaceChild
  rw [bind_of_ok (countMutation_ok f), bind_of_ok (detach_ok n f.counted),
    bind_of_error (position_of_not_mem (not_mem_children_detach hf h))]

/-- A node that is no child is not removed. -/
theorem removeChild_of_not_mem (hf : f.Linked) (h : n ∉ f.children p) :
    Edit.removeChild p n f = .error .removesForeign f.counted := by
  rw [hf.mem_children_iff] at h
  unfold Edit.removeChild
  rw [bind_of_ok (countMutation_ok f), bind_of_ok (get_ok _),
    if_neg (show ¬ f.counted.parent? n = some p from h)]
  rfl

end Forest

end LiveTemplate
