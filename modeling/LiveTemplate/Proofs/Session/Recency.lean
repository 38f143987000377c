import LiveTemplate.Proofs.Session.Operations
import Mathlib.Data.List.Dedup
import Mathlib.Data.List.DropRight

/-!
# What an engine keeps

An engine keeps its templates by the addresses of the sequences they were compiled from.  What it
keeps can be said without addresses: of everything that it compiled since it last forgot its
templates, it keeps the most recent ones, each sequence and dialect counted once
(`Session.keeps_recent`).

All that is known of addresses is that sequences which are live at the same time have different
ones.  A sequence is live while the engine keeps it and while it is passed to the engine; any other
may have left its address to a new one.
-/

namespace LiveTemplate

set_option autoImplicit false

/-! ## The most recent entries -/

namespace Cache

variable {κ α : Type} [DecidableEq κ]

/-- The entries under other keys. -/
def others (key : κ) (l : List (κ × α)) : List (κ × α) := l.filter (·.1 != key)

/-- The last entry under every key of a log. -/
def latest (log : List (κ × α)) : List (κ × α) := log.pwFilter fun a b => a.1 ≠ b.1

/-- The last entries under the keys used last, as many as there is room for. -/
def recent (room : Nat) (log : List (κ × α)) : List (κ × α) := (latest log).rtake room

theorem map_latest (log : List (κ × α)) : (latest log).map (·.1) = (log.map (·.1)).dedup :=
  (List.pwFilter_map (R := fun k k' => k ≠ k') Prod.fst log).symm

theorem nodup_keys_latest (log : List (κ × α)) : ((latest log).map (·.1)).Nodup := by
  rw [map_latest]
  exact List.nodup_dedup _

theorem recent_subset (room : Nat) (log : List (κ × α)) : recent room log ⊆ log := fun _ h =>
  List.pwFilter_subset _ (List.mem_of_mem_drop h)

theorem nodup_keys_recent (room : Nat) (log : List (κ × α)) :
    ((recent room log).map (·.1)).Nodup :=
  (nodup_keys_latest log).sublist ((List.drop_sublist _ _).map _)

theorem length_recent_le (room : Nat) (log : List (κ × α)) : (recent room log).length ≤ room := by
  unfold recent List.rtake
  rw [List.length_drop]
  omega

@[simp] theorem recent_nil (room : Nat) : recent room ([] : List (κ × α)) = [] := List.drop_nil

theorem latest_append (log : List (κ × α)) (c : κ × α) :
    latest (log ++ [c]) = others c.1 (latest log) ++ [c] := by
  unfold others
  induction log with
  | nil => rfl
  | cons a log ih =>
      have hcons : ∀ l : List (κ × α), latest (a :: l)
          = if ∀ b ∈ latest l, a.1 ≠ b.1 then a :: latest l else latest l := fun _ => rfl
      rw [List.cons_append, hcons, ih, hcons]
      by_cases hac : a.1 = c.1
      · have hlate : ¬ ∀ b ∈ (latest log).filter (·.1 != c.1) ++ [c], a.1 ≠ b.1 :=
          fun h => h c (by simp) hac
        rw [if_neg hlate]
        split
        · rw [List.filter_cons_of_neg (by simpa using hac)]
        · rfl
      · have hiff : (∀ b ∈ (latest log).filter (·.1 != c.1) ++ [c], a.1 ≠ b.1) ↔
            ∀ b ∈ latest log, a.1 ≠ b.1 := by
          constructor
          · intro h b hb heq
            refine h b (List.mem_append_left _ (List.mem_filter.mpr ⟨hb, ?_⟩)) heq
            simpa using fun e => hac (heq.trans e)
          · intro h b hb
            rcases List.mem_append.mp hb with hb | hb
            · exact h b (List.mem_filter.mp hb).1
            · rwa [List.mem_singleton.mp hb]
        simp only [hiff]
        split
        · rw [List.filter_cons_of_pos (by simpa using hac), List.cons_append]
        · rfl

omit [DecidableEq κ] in
/-- What is dropped for want of room need not be looked at again. -/
theorem rtake_append_of_le {front back : List (κ × α)} {room : Nat} (h : room ≤ back.length) :
    (front ++ back).rtake room = back.rtake room := by
  unfold List.rtake
  rw [List.length_append, Nat.add_sub_assoc h, List.drop_append]
  simp

/-- Leaving out one key leaves out one entry at most. -/
theorem length_others {l : List (κ × α)} (h : (l.map (·.1)).Nodup) (key : κ) :
    l.length ≤ (others key l).length + 1 := by
  have hkeys : (others key l).length = ((l.map (·.1)).erase key).length := by
    rw [h.erase_eq_filter, List.filter_map, List.length_map]
    rfl
  have hlength : (l.map (·.1)).length = l.length := List.length_map _
  rw [hkeys, List.length_erase]
  split <;> omega

/-- Using a key leaves the most recent entries under the other keys. -/
theorem recent_append (room : Nat) (log : List (κ × α)) (c : κ × α) :
    recent room (log ++ [c]) = (others c.1 (recent room log) ++ [c]).rtake room := by
  let front := (latest log).take ((latest log).length - room)
  have hsplit : latest log = front ++ recent room log := (List.take_append_drop _ _).symm
  have hothers : others c.1 (latest log) = others c.1 front ++ others c.1 (recent room log) := by
    unfold others
    rw [← List.filter_append, ← hsplit]
  show (latest (log ++ [c])).rtake room = _
  rw [latest_append, hothers, List.append_assoc]
  by_cases hroom : (latest log).length ≤ room
  · have hfront : front = [] := by
      show (latest log).take _ = []
      rw [Nat.sub_eq_zero_of_le hroom, List.take_zero]
    rw [hfront]
    rfl
  · have hlength : (recent room log).length = room := by
      unfold recent List.rtake
      rw [List.length_drop]
      omega
    have hkey := length_others (nodup_keys_recent room log) c.1
    refine rtake_append_of_le ?_
    rw [List.length_append, List.length_singleton]
    omega

/-- A key that is among the most recent ones becomes the last one. -/
theorem recent_append_of_mem {room : Nat} {log : List (κ × α)} {c : κ × α}
    (h : c ∈ recent room log) :
    recent room (log ++ [c]) = others c.1 (recent room log) ++ [c] := by
  have hlt : (others c.1 (recent room log)).length < (recent room log).length :=
    List.length_filter_lt_length_iff_exists.mpr ⟨c, h, by simp⟩
  have hle := length_recent_le room log
  rw [recent_append, List.rtake, List.length_append, List.length_singleton,
    Nat.sub_eq_zero_of_le (by omega), List.drop_zero]

/-- Entries are left out alike when their keys are told apart in both lists. -/
theorem others_map {κ' α' : Type} [DecidableEq κ'] {change : κ × α → κ' × α'} {key : κ} {key' : κ'}
    {l : List (κ × α)} (h : ∀ c ∈ l, (change c).1 = key' ↔ c.1 = key) :
    others key' (l.map change) = (others key l).map change := by
  unfold others
  rw [List.filter_map]
  congr 1
  refine List.filter_congr fun c hc => ?_
  show ((change c).1 != key') = (c.1 != key)
  by_cases hkey : c.1 = key
  · rw [(h c hc).mpr hkey, hkey, bne_self_eq_false, bne_self_eq_false]
  · rw [bne_iff_ne.mpr fun heq => hkey ((h c hc).mp heq), bne_iff_ne.mpr hkey]

/-- A key with an entry is found, if not with that entry. -/
theorem exists_find?_of_mem {c : Cache κ α} {key : κ} {a : α} (h : (key, a) ∈ c.entries) :
    ∃ b, c.find? key = some b := by
  unfold find?
  cases hfind : c.entries.lookup key with
  | some b => exact ⟨b, rfl⟩
  | none =>
      have hne := List.lookup_eq_none_iff.mp hfind (key, a) h
      simp at hne

end Cache

/-! ## Compilations -/

/-- What was compiled, and the template it was compiled to. -/
abbrev Compilation := (SequenceId × Option Dialect) × TemplateId

namespace Operation

/-- The sequence that is passed to an engine to be compiled. -/
def passed? (e : EngineId) : Operation → Option SequenceId
  | .compile _ e' sequence _ _ => if e' = e then some sequence else none
  | _ => none

/-- A log with a compilation behind it, unless that has failed. -/
def withResult (log : List Compilation) (key : SequenceId × Option Dialect) :
    EStateM.Result Fault Session TemplateId → List Compilation
  | .ok t _ => log ++ [(key, t)]
  | .error .. => log

/-- The log of an engine, with what the operation adds to it. -/
def logged (e : EngineId) (s : Session) (log : List Compilation) : Operation → List Compilation
  | .compile parse e' sequence fragments forced =>
    if e' = e then
      withResult log (sequence, forced) (Live.compileWith parse e' sequence fragments forced s)
    else log
  | .clearCache e' => if e' = e then [] else log
  | _ => log

end Operation

namespace Session

/-- What an engine has compiled since it last forgot its templates, if it had compiled `log`
before the operations. -/
def compilations (e : EngineId) : Session → List Compilation → List Operation → List Compilation
  | _, log, [] => log
  | s, log, operation :: rest =>
    compilations e (operation.run.after s) (operation.logged e s log) rest

/-- No sequence that an engine keeps is stored where another one is, which is passed to it. -/
def StoredApart (s : Session) (e : EngineId) (sequence : SequenceId) : Prop :=
  ∀ entry ∈ (s.engineAt e).cache.entries,
    s.addressOf entry.2.sequence = s.addressOf sequence → entry.2.sequence = sequence

instance (s : Session) (e : EngineId) (sequence : SequenceId) :
    Decidable (s.StoredApart e sequence) :=
  inferInstanceAs (Decidable (∀ entry ∈ (s.engineAt e).cache.entries, _))

/-- At every operation the live sequences are stored apart. -/
def StoredApartAll (e : EngineId) : Session → List Operation → Prop
  | _, [] => True
  | s, operation :: rest =>
    (∀ sequence ∈ (operation.passed? e).toList, s.StoredApart e sequence) ∧
      StoredApartAll e (operation.run.after s) rest

instance decidableStoredApartAll (e : EngineId) : ∀ (s : Session) (operations : List Operation),
    Decidable (StoredApartAll e s operations)
  | _, [] => .isTrue trivial
  | s, operation :: rest =>
    have := decidableStoredApartAll e (operation.run.after s) rest
    inferInstanceAs (Decidable ((∀ sequence ∈ (operation.passed? e).toList, _) ∧ _))

/-- How a compilation is kept. -/
def keeping (s : Session) (c : Compilation) : TemplateKey × Kept :=
  ((s.addressOf c.1.1, c.1.2), ⟨c.1.1, c.2⟩)

/-- The engine keeps the most recent ones of its compilations. -/
structure Remembers (s : Session) (e : EngineId) (settings : Settings) (log : List Compilation) :
    Prop where
  lt_size : e < s.engines.size
  settings_eq : (s.engineAt e).settings = settings
  entries_eq : (s.engineAt e).cache.entries
    = (Cache.recent settings.cacheRoom.toNat log).map s.keeping
  /-- What will be compiled next is new. -/
  template_lt : ∀ c ∈ log, c.2 < s.templates.size
  /-- A template belongs to one sequence and one dialect. -/
  told_apart : ∀ c ∈ log, ∀ c' ∈ log, c.2 = c'.2 → c.1 = c'.1

/-! ## Looking at one engine -/

theorem engineAt_modifyCache_self {s : Session} {e : EngineId} (h : e < s.engines.size)
    (change : Cache TemplateKey Kept → Cache TemplateKey Kept) :
    ((s.modifyCache e change).engineAt e).settings = (s.engineAt e).settings ∧
      ((s.modifyCache e change).engineAt e).cache = change (s.engineAt e).cache := by
  unfold modifyCache engineAt
  simp [Array.getD, h, Array.getElem_modify_self]

theorem engineAt_modifyCache_of_ne {s : Session} {e e' : EngineId} (h : e' ≠ e)
    (change : Cache TemplateKey Kept → Cache TemplateKey Kept) :
    (s.modifyCache e' change).engineAt e = s.engineAt e := by
  unfold modifyCache engineAt
  simp only [Array.getD_eq_getD_getElem?, Array.getElem?_modify, if_neg h]

theorem engineAt_congr {s s' : Session} (h : s'.engines = s.engines) (e : EngineId) :
    s'.engineAt e = s.engineAt e := by
  unfold engineAt
  rw [h]

theorem size_modifyCache (s : Session) (e : EngineId)
    (change : Cache TemplateKey Kept → Cache TemplateKey Kept) :
    (s.modifyCache e change).engines.size = s.engines.size := by
  simp [modifyCache]

/-- Templates are never taken back. -/
theorem Extends.size_le {s s' : Session} (h : s.Extends s') :
    s.templates.size ≤ s'.templates.size := by
  by_contra hlt
  have hmem := Array.getElem?_eq_getElem (Nat.lt_of_not_le hlt)
  have hlt' := (Array.getElem?_eq_some_iff.mp (h.templates _ _ hmem)).1
  exact absurd hlt' (Nat.lt_irrefl _)

namespace Remembers

variable {s s' : Session} {e : EngineId} {settings : Settings} {log : List Compilation}
  {sequence : SequenceId} {forced : Option Dialect} {t : TemplateId}

/-- What leaves the engine alone changes nothing. -/
theorem of_engineAt_eq (h : s.Remembers e settings log) (hextends : s.Extends s')
    (hsize : s.engines.size ≤ s'.engines.size) (hengine : s'.engineAt e = s.engineAt e) :
    s'.Remembers e settings log where
  lt_size := Nat.lt_of_lt_of_le h.lt_size hsize
  settings_eq := by rw [hengine, h.settings_eq]
  entries_eq := by
    rw [hengine, h.entries_eq]
    unfold keeping
    rw [hextends.addressOf_eq]
  template_lt c hc := Nat.lt_of_lt_of_le (h.template_lt c hc) hextends.size_le
  told_apart := h.told_apart

/-- A sequence that is kept is live. -/
theorem held (h : s.Remembers e settings log) {c : Compilation}
    (hc : c ∈ Cache.recent settings.cacheRoom.toNat log) :
    s.keeping c ∈ (s.engineAt e).cache.entries := by
  rw [h.entries_eq]
  exact List.mem_map_of_mem hc

/-- As long as live sequences are stored apart, compilations are kept under different keys. -/
theorem key_eq_iff (h : s.Remembers e settings log) (hapart : s.StoredApart e sequence)
    {c : Compilation} (hc : c ∈ Cache.recent settings.cacheRoom.toNat log) :
    (s.keeping c).1 = (s.addressOf sequence, forced) ↔ c.1 = (sequence, forced) := by
  constructor
  · intro heq
    obtain ⟨haddress, hforced⟩ := Prod.mk.inj heq
    exact Prod.ext (hapart _ (h.held hc) haddress) hforced
  · intro heq
    unfold keeping
    rw [heq]

/-- The engine finds exactly the most recent compilations. -/
theorem keptFor_eq_some_iff (h : s.Remembers e settings log) (hcaching : settings.caching = true)
    (hapart : s.StoredApart e sequence) : s.keptFor e sequence forced = some t ↔
      ((sequence, forced), t) ∈ Cache.recent settings.cacheRoom.toNat log := by
  unfold keptFor
  rw [h.settings_eq, if_pos hcaching, Engine.find?_eq_some_iff]
  constructor
  · intro hfind
    have hmem := Cache.mem_entries_of_find? hfind
    rw [h.entries_eq] at hmem
    obtain ⟨c, hc, heq⟩ := List.mem_map.mp hmem
    obtain ⟨hkey, hkept⟩ := Prod.mk.inj heq
    have hsame := (h.key_eq_iff hapart hc).mp hkey
    have ht : c.2 = t := congrArg Kept.template hkept
    rwa [← hsame, ← ht]
  · intro hc
    obtain ⟨kept, hfind⟩ := Cache.exists_find?_of_mem (h.held hc)
    have hmem' := Cache.mem_entries_of_find? hfind
    rw [h.entries_eq] at hmem'
    obtain ⟨c', hc', heq⟩ := List.mem_map.mp hmem'
    obtain ⟨hkey, hkept⟩ := Prod.mk.inj heq
    have hsame := (h.key_eq_iff hapart hc').mp hkey
    have hc'eq : c' = ((sequence, forced), t) :=
      List.inj_on_of_nodup_map (Cache.nodup_keys_recent _ log) hc' hc hsame
    rw [hfind, ← hkept, hc'eq]

/-- A compilation that was found becomes the most recent one. -/
theorem use (h : s.Remembers e settings log) (hcaching : settings.caching = true)
    (hapart : s.StoredApart e sequence) (hextends : s.Extends s')
    (hhit : s.keptFor e sequence forced = some t)
    (hengines : s'.engines = (s.use e sequence forced t).engines) :
    s'.Remembers e settings (log ++ [((sequence, forced), t)]) := by
  have hc := (h.keptFor_eq_some_iff hcaching hapart).mp hhit
  have hlog := Cache.recent_subset _ _ hc
  obtain ⟨hsettings, hcache⟩ := engineAt_modifyCache_self h.lt_size
    (·.use (s.addressOf sequence, forced) ⟨sequence, t⟩)
  have hengine : s'.engineAt e = _ := engineAt_congr hengines e
  have hkeeping : s'.keeping = s.keeping := by
    unfold keeping
    rw [hextends.addressOf_eq]
  have hmem : ∀ c ∈ log ++ [((sequence, forced), t)], c ∈ log := by
    intro c hc
    rcases List.mem_append.mp hc with hc | hc
    · exact hc
    · rwa [List.mem_singleton.mp hc]
  refine ⟨?_, (hengine ▸ hsettings).trans h.settings_eq, ?_, ?_, ?_⟩
  · rw [hengines, Session.use, size_modifyCache]
    exact h.lt_size
  · rw [hengine, Session.use, hcache, Cache.recent_append_of_mem hc, List.map_append, hkeeping,
      ← Cache.others_map fun c hc => h.key_eq_iff hapart hc, ← h.entries_eq]
    rfl
  · exact fun c hc => Nat.lt_of_lt_of_le (h.template_lt c (hmem c hc)) hextends.size_le
  · exact fun c hc c' hc' => h.told_apart c (hmem c hc) c' (hmem c' hc')

/-- A new compilation becomes the most recent one, too. -/
theorem keep (h : s.Remembers e settings log) (hcaching : settings.caching = true)
    (hapart : s.StoredApart e sequence) {template : Template}
    (htemplates : s'.templates = s.templates.push template)
    (haddresses : s'.addressOf = s.addressOf)
    (hengines : s'.engines = (s.keep e sequence forced s.templates.size).engines) :
    s'.Remembers e settings (log ++ [((sequence, forced), s.templates.size)]) := by
  have hkeep : s.keep e sequence forced s.templates.size = s.modifyCache e
      (·.store settings.cacheRoom.toNat (s.addressOf sequence, forced)
        ⟨sequence, s.templates.size⟩) := by
    unfold Session.keep
    rw [h.settings_eq, if_pos hcaching]
  rw [hkeep] at hengines
  obtain ⟨hsettings, hcache⟩ := engineAt_modifyCache_self h.lt_size (·.store
    settings.cacheRoom.toNat (s.addressOf sequence, forced) ⟨sequence, s.templates.size⟩)
  have hengine : s'.engineAt e = _ := engineAt_congr hengines e
  have hkeeping : s'.keeping = s.keeping := by
    unfold keeping
    rw [haddresses]
  refine ⟨?_, (hengine ▸ hsettings).trans h.settings_eq, ?_, ?_, ?_⟩
  · rw [hengines, size_modifyCache]
    exact h.lt_size
  · rw [hengine, hcache, Cache.recent_append, hkeeping]
    have hlast : [((s.addressOf sequence, forced), (⟨sequence, s.templates.size⟩ : Kept))]
        = [((sequence, forced), s.templates.size)].map s.keeping := rfl
    show (Cache.others (s.addressOf sequence, forced) (s.engineAt e).cache.entries ++ [_]).rtake _
      = _
    rw [h.entries_eq, Cache.others_map fun c hc => h.key_eq_iff hapart hc, hlast,
      ← List.map_append]
    unfold List.rtake
    rw [List.length_map, List.map_drop]
  · intro c hc
    rw [htemplates, Array.size_push]
    rcases List.mem_append.mp hc with hc | hc
    · exact Nat.lt_succ_of_lt (h.template_lt c hc)
    · rw [List.mem_singleton.mp hc]
      exact Nat.lt_succ_self _
  · have hnew : ∀ c ∈ log, c.2 ≠ s.templates.size := fun c hc => Nat.ne_of_lt (h.template_lt c hc)
    intro c hc c' hc' heq
    rcases List.mem_append.mp hc with hc | hc <;> rcases List.mem_append.mp hc' with hc' | hc'
    · exact h.told_apart c hc c' hc' heq
    · rw [List.mem_singleton.mp hc'] at heq
      exact absurd heq (hnew c hc)
    · rw [List.mem_singleton.mp hc] at heq
      exact absurd heq.symm (hnew c' hc')
    · rw [List.mem_singleton.mp hc, List.mem_singleton.mp hc']

/-- An engine that forgets its templates has compiled nothing. -/
theorem clear (h : s.Remembers e settings log) :
    (s.modifyCache e fun _ => {}).Remembers e settings [] where
  lt_size := by
    rw [size_modifyCache]
    exact h.lt_size
  settings_eq := (engineAt_modifyCache_self h.lt_size _).1.trans h.settings_eq
  entries_eq := by
    rw [(engineAt_modifyCache_self h.lt_size fun _ => {}).2, Cache.recent_nil]
    rfl
  template_lt _ hc := nomatch hc
  told_apart _ hc := nomatch hc

/-- Compiling with another engine leaves the engine alone. -/
theorem of_other (h : s.Remembers e settings log) {e' : EngineId} (he : e' ≠ e)
    (hextends : s.Extends s') {c : Cache TemplateKey Kept → Cache TemplateKey Kept}
    (hengines : s'.engines = s.engines ∨ s'.engines = (s.modifyCache e' c).engines) :
    s'.Remembers e settings log := by
  rcases hengines with hengines | hengines
  · exact h.of_engineAt_eq hextends (Nat.le_of_eq (congrArg Array.size hengines.symm))
      (engineAt_congr hengines e)
  · refine h.of_engineAt_eq hextends ?_ ?_
    · rw [hengines, size_modifyCache]
    · exact (engineAt_congr hengines e).trans (engineAt_modifyCache_of_ne he _)

/-- What compiling preserves: it adds to the log of its engine, unless it fails. -/
theorem compile (h : s.Remembers e settings log) (hcaching : settings.caching = true)
    (parse : MarkupReader) (e' : EngineId) (fragments : Value)
    (hapart : e' = e → s.StoredApart e sequence) :
    ((Live.compileWith parse e' sequence fragments forced).after s).Remembers e settings
      ((Operation.compile parse e' sequence fragments forced).logged e s log) := by
  have hcompiled := Live.compiled_compileWith parse e' sequence fragments forced s
  have hextends := hcompiled.extends
  show Remembers _ e settings (if e' = e then Operation.withResult log (sequence, forced)
    (Live.compileWith parse e' sequence fragments forced s) else log)
  unfold Live.after at hextends ⊢
  generalize Live.compileWith parse e' sequence fragments forced s = result at hcompiled hextends ⊢
  by_cases he : e' = e
  · subst he
    rw [if_pos rfl]
    cases hcompiled with
    | failed continues =>
        exact h.of_engineAt_eq hextends
          (Nat.le_of_eq (congrArg Array.size continues.engines_eq.symm))
          (engineAt_congr continues.engines_eq e')
    | found cached templates_eq instances_eq caches addressOf_eq hit engines_eq =>
        exact h.use hcaching (hapart rfl) hextends hit engines_eq
    | made texts_eq compiled templates_eq instances_eq caches addressOf_eq missed engines_eq =>
        exact h.keep hcaching (hapart rfl) templates_eq addressOf_eq engines_eq
  · rw [if_neg he]
    cases hcompiled with
    | failed continues => exact h.of_other (c := id) he hextends (.inl continues.engines_eq)
    | found cached templates_eq instances_eq caches addressOf_eq hit engines_eq =>
        exact h.of_other he hextends (.inr engines_eq)
    | made texts_eq compiled templates_eq instances_eq caches addressOf_eq missed engines_eq =>
        unfold Session.keep at engines_eq
        split at engines_eq
        · exact h.of_other he hextends (.inr engines_eq)
        · exact h.of_other (c := id) he hextends (.inl engines_eq)

/-- What one operation preserves. -/
theorem step (h : s.Remembers e settings log) (hcaching : settings.caching = true)
    (operation : Operation)
    (hapart : ∀ sequence ∈ (operation.passed? e).toList, s.StoredApart e sequence) :
    (operation.run.after s).Remembers e settings (operation.logged e s log) := by
  have hextends := s.extends_run operation
  cases hconcerns : operation.concernsEngines with
  | false =>
      have hengines := (quiet_of_concernsEngines_eq_false hconcerns s).engines_eq
      have hlog : operation.logged e s log = log := by cases operation <;> trivial
      rw [hlog]
      exact h.of_engineAt_eq hextends (Nat.le_of_eq (congrArg Array.size hengines.symm))
        (engineAt_congr hengines e)
  | true =>
      cases operation with
      | addEngine added =>
          rcases s.after_addEngine added with hsame | hadded
          · exact hsame.symm ▸ h
          · have hne : e ≠ s.engines.size := Nat.ne_of_lt h.lt_size
            refine h.of_engineAt_eq hextends ?_ ?_
            · rw [hadded, Array.size_push]
              exact Nat.le_succ _
            · rw [hadded]
              simp only [engineAt, Array.getD_eq_getD_getElem?, Array.getElem?_push, if_neg hne]
      | clearCache e' =>
          change (s.modifyCache e' fun _ => {}).Remembers e settings (if e' = e then [] else log)
          by_cases he : e' = e
          · rw [if_pos he, he]
            exact h.clear
          · rw [if_neg he]
            exact h.of_engineAt_eq hextends (Nat.le_of_eq (size_modifyCache ..).symm)
              (engineAt_modifyCache_of_ne he _)
      | compile parse e' sequence fragments forced =>
          show (Live.after (_ >>= fun _ => pure ()) s).Remembers e settings _
          rw [Live.after_bind_pure]
          refine h.compile hcaching parse e' fragments fun he => hapart sequence ?_
          rw [Option.mem_toList]
          exact if_pos he
      | _ => cases hconcerns

/-- What any operations preserve. -/
theorem run (h : s.Remembers e settings log) (hcaching : settings.caching = true)
    (operations : List Operation) (hapart : StoredApartAll e s operations) :
    (s.afterAll operations).Remembers e settings (compilations e s log operations) := by
  induction operations generalizing s log with
  | nil => exact h
  | cons operation rest ih => exact ih (h.step hcaching operation hapart.1) hapart.2

/-- A sequence that was compiled recently is not compiled again. -/
theorem compile_of_mem (h : s.Remembers e settings log) (hcaching : settings.caching = true)
    (hapart : s.StoredApart e sequence)
    (hc : ((sequence, forced), t) ∈ Cache.recent settings.cacheRoom.toNat log)
    (parse : MarkupReader) (fragments : Value) :
    ∃ s', Live.compileWith parse e sequence fragments forced s = .ok t s' ∧
      s'.templates = s.templates := by
  have hkept := (h.keptFor_eq_some_iff hcaching hapart).mpr hc
  have hcompiled := Live.compiled_compileWith parse e sequence fragments forced s
  generalize Live.compileWith parse e sequence fragments forced s = result at hcompiled ⊢
  cases hcompiled with
  | failed continues missed => exact nomatch missed.symm.trans hkept
  | found cached templates_eq instances_eq caches addressOf_eq hit engines_eq =>
      cases hit.symm.trans hkept
      exact ⟨_, rfl, templates_eq⟩
  | made texts_eq compiled templates_eq instances_eq caches addressOf_eq missed =>
      exact nomatch missed.symm.trans hkept

/-- Any other sequence is compiled to a new template, or the engine keeps what it kept. -/
theorem compile_of_not_mem (h : s.Remembers e settings log) (hcaching : settings.caching = true)
    (hapart : s.StoredApart e sequence)
    (hnot : (sequence, forced) ∉ (Cache.recent settings.cacheRoom.toNat log).map (·.1))
    (parse : MarkupReader) (fragments : Value) :
    (∃ fault s', Live.compileWith parse e sequence fragments forced s = .error fault s' ∧
      s'.templates = s.templates ∧ (s'.engineAt e).cache = (s.engineAt e).cache) ∨
    ∃ template s', Live.compileWith parse e sequence fragments forced s
      = .ok s.templates.size s' ∧ s'.templates = s.templates.push template := by
  have hcompiled := Live.compiled_compileWith parse e sequence fragments forced s
  generalize Live.compileWith parse e sequence fragments forced s = result at hcompiled ⊢
  cases hcompiled with
  | failed continues =>
      exact .inl ⟨_, _, rfl, continues.templates_eq,
        congrArg Engine.cache (engineAt_congr continues.engines_eq e)⟩
  | found cached templates_eq instances_eq caches addressOf_eq hit =>
      have hc := (h.keptFor_eq_some_iff hcaching hapart).mp hit
      exact absurd (List.mem_map_of_mem hc) hnot
  | made texts_eq compiled templates_eq => exact .inr ⟨_, _, rfl, templates_eq⟩

end Remembers

/-- An engine that is made has compiled nothing. -/
theorem remembers_new {s : Session} {e : EngineId} {settings : Settings}
    (h : s.engines[e]? = some { settings }) : s.Remembers e settings [] := by
  have hengine : s.engineAt e = { settings } := by
    rw [engineAt, Array.getD_eq_getD_getElem?, h]
    rfl
  refine ⟨(Array.getElem?_eq_some_iff.mp h).1, by rw [hengine], ?_,
    fun _ hc => absurd hc List.not_mem_nil, fun _ hc => absurd hc List.not_mem_nil⟩
  rw [hengine, Cache.recent_nil]
  rfl

/-- Whatever is done in a session from the moment an engine is made, the engine keeps the most
recent of its compilations, the last one last, each of them under the address of its own sequence.
What it is given next is compiled only if it is none of these; then it gets a new template or fails
and leaves what is kept as it is. -/
theorem keeps_recent {s : Session} {e : EngineId} {settings : Settings}
    (hmade : s.engines[e]? = some { settings }) (hcaching : settings.caching = true)
    (operations : List Operation) (hapart : StoredApartAll e s operations) :
    let log := compilations e s [] operations
    let s' := s.afterAll operations
    s'.Remembers e settings log ∧
    ∀ parse sequence fragments forced, s'.StoredApart e sequence →
      (∀ t, ((sequence, forced), t) ∈ Cache.recent settings.cacheRoom.toNat log →
        ∃ s'', Live.compileWith parse e sequence fragments forced s' = .ok t s'' ∧
          s''.templates = s'.templates) ∧
      ((sequence, forced) ∉ (Cache.recent settings.cacheRoom.toNat log).map (·.1) →
        (∃ fault s'', Live.compileWith parse e sequence fragments forced s' = .error fault s'' ∧
          s''.templates = s'.templates ∧ (s''.engineAt e).cache = (s'.engineAt e).cache) ∨
        ∃ template s'', Live.compileWith parse e sequence fragments forced s'
          = .ok s'.templates.size s'' ∧ s''.templates = s'.templates.push template) := by
  intro log s'
  have hremembers := (remembers_new hmade).run hcaching operations hapart
  refine ⟨hremembers, fun parse sequence fragments forced happly => ⟨fun t hc => ?_, ?_⟩⟩
  · exact hremembers.compile_of_mem hcaching happly hc parse fragments
  · exact fun hnot => hremembers.compile_of_not_mem hcaching happly hnot parse fragments

/-- An engine that has room for one template, in a session where every other sequence gets the same
address. -/
def crampedEngine : Session where
  engines := #[{ settings := { cacheRoom := 1 } }]
  addressOf := (· % 2)

/-- A line break is compiled from a sequence. -/
def compileBreak (sequence : SequenceId) : Operation :=
  .compile (fun _ _ _ => .ok []) 0 sequence (.list [.text "<br>"]) (some .html)

/-- Three sequences are compiled, of which the third is stored where the first one was, and nothing
is found under that address; the third is compiled again, and then an empty one, which fails. -/
theorem keeps_recent_crampedEngine :
    let operations := [compileBreak 0, compileBreak 1, compileBreak 2, compileBreak 2,
      .compile (fun _ _ _ => .ok []) 0 3 (.list []) (some .html)]
    let log : List Compilation := [((0, some .html), 0), ((1, some .html), 1), ((2, some .html), 2),
      ((2, some .html), 2)]
    StoredApartAll 0 crampedEngine operations ∧
    compilations 0 crampedEngine [] operations = log ∧
    (crampedEngine.afterAll operations).Remembers 0 { cacheRoom := 1 } log ∧
    Cache.recent 1 log = [((2, some .html), 2)] := by
  intro operations log
  have hapart : StoredApartAll 0 crampedEngine operations := by decide +kernel
  have hlog : compilations 0 crampedEngine [] operations = log := by decide +kernel
  have hkeeps := (keeps_recent rfl rfl operations hapart).1
  exact ⟨hapart, hlog, hlog ▸ hkeeps, by decide +kernel⟩

end Session

end LiveTemplate
