import Mathlib

/-! # Tables — finite maps, and finite trees keyed by paths

    A table is a list of key-value pairs; the first pair of a key counts.
    Inserting keeps the place of a key that is there and appends one that is
    not, so surviving entries keep their relative order.

    With lists as keys a table is a tree given by its paths.  `move` carries a
    whole subtree to another place, and `get_move` says what every path names
    afterwards. -/

namespace TokimoTable

variable {K V α : Type}

/-- A finite map as a list of pairs. -/
abbrev Table (K V : Type) := List (K × V)

namespace Table

section Keys

variable [DecidableEq K]

/-- The value stored under a key. -/
def get (t : Table K V) (k : K) : Option V :=
  match t with
  | [] => none
  | (k', v) :: rest => if k' = k then some v else get rest k

/-- Store a value under a key, in place if the key is there. -/
def insert (t : Table K V) (k : K) (v : V) : Table K V :=
  match t with
  | [] => [(k, v)]
  | (k', v') :: rest =>
      if k' = k then (k, v) :: rest else (k', v') :: insert rest k v

/-- Remove a key. -/
def erase (t : Table K V) (k : K) : Table K V :=
  t.filter (fun e => !decide (e.1 = k))

@[simp]
theorem get_nil (k : K) : get ([] : Table K V) k = none := rfl

theorem get_cons (k' : K) (v : V) (t : Table K V) (k : K) :
    get ((k', v) :: t) k = if k' = k then some v else get t k := rfl

/-- After an insertion the key has the new value, every other key its own. -/
theorem get_insert (t : Table K V) (k : K) (v : V) (k₁ : K) :
    get (insert t k v) k₁ = if k = k₁ then some v else get t k₁ := by
  induction t with
  | nil => rfl
  | cons e rest ih =>
      obtain ⟨k', v'⟩ := e
      rw [insert]
      by_cases h : k' = k
      · rw [if_pos h, get_cons, get_cons, h]
        by_cases h1 : k = k₁
        · rw [if_pos h1, if_pos h1]
        · rw [if_neg h1, if_neg h1, if_neg h1]
      · rw [if_neg h, get_cons, get_cons, ih]
        by_cases h1 : k' = k₁
        · have hne : ¬ k = k₁ := fun h2 => h (h1.trans h2.symm)
          rw [if_pos h1, if_neg hne, if_pos h1]
        · rw [if_neg h1, if_neg h1]

theorem get_insert_self (t : Table K V) (k : K) (v : V) :
    get (insert t k v) k = some v := by
  rw [get_insert, if_pos rfl]

theorem get_insert_ne (t : Table K V) {k k₁ : K} (v : V) (h : k ≠ k₁) :
    get (insert t k v) k₁ = get t k₁ := by
  rw [get_insert, if_neg h]

theorem get_map_values {W : Type} (t : Table K V) (f : V → W) (k : K) :
    get (t.map fun e => (e.1, f e.2)) k = (get t k).map f := by
  induction t with
  | nil => rfl
  | cons e rest ih =>
      obtain ⟨k', v⟩ := e
      rw [List.map_cons, get_cons, get_cons, ih]
      by_cases h : k' = k
      · rw [if_pos h, if_pos h]
        rfl
      · rw [if_neg h, if_neg h]

/-- A filter that only looks at keys hides the keys it refuses. -/
theorem get_filter (t : Table K V) (p : K → Bool) (k : K) :
    get (t.filter (fun e => p e.1)) k = if p k then get t k else none := by
  induction t with
  | nil =>
      rw [List.filter_nil, get_nil]
      by_cases h : p k
      · rw [if_pos h]
      · rw [if_neg h]
  | cons e rest ih =>
      obtain ⟨k', v'⟩ := e
      by_cases hp : p k'
      · rw [List.filter_cons_of_pos (p := fun e : K × V => p e.1) (a := (k', v')) hp, get_cons,
          get_cons, ih]
        by_cases hk : k' = k
        · subst hk
          rw [if_pos rfl, if_pos hp, if_pos rfl]
        · rw [if_neg hk, if_neg hk]
      · rw [List.filter_cons_of_neg (p := fun e : K × V => p e.1) (a := (k', v')) hp, get_cons, ih]
        by_cases hk : k' = k
        · subst hk
          rw [if_neg hp, if_neg hp]
        · rw [if_neg hk]

/-- After a removal the key is gone, every other key is as before. -/
theorem get_erase (t : Table K V) (k k₁ : K) :
    get (erase t k) k₁ = if k = k₁ then none else get t k₁ := by
  rw [erase, get_filter t (fun k' => !decide (k' = k)) k₁]
  by_cases h : k = k₁
  · subst h
    rw [if_pos rfl, if_neg (by simp)]
  · have hne : ¬ k₁ = k := fun h' => h h'.symm
    rw [if_neg h, if_pos (by simp [hne])]

/-- What is stored under a key is one of the pairs. -/
theorem mem_of_get {t : Table K V} {k : K} {v : V} (h : get t k = some v) :
    (k, v) ∈ t := by
  induction t with
  | nil => exact nomatch h
  | cons e rest ih =>
      obtain ⟨k', v'⟩ := e
      rw [get_cons] at h
      by_cases hk : k' = k
      · rw [if_pos hk] at h
        rw [hk, Option.some.inj h]
        exact List.mem_cons_self ..
      · rw [if_neg hk] at h
        exact List.mem_cons_of_mem _ (ih h)

/-- Where no key has two pairs, every pair is found. -/
theorem get_of_mem {t : Table K V} (hkeys : (t.map Prod.fst).Nodup) {k : K} {v : V}
    (h : (k, v) ∈ t) : get t k = some v := by
  induction t with
  | nil => exact nomatch h
  | cons e rest ih =>
      obtain ⟨k', v'⟩ := e
      obtain ⟨hnew, hrest⟩ := List.nodup_cons.mp hkeys
      rw [get_cons]
      rcases List.mem_cons.mp h with heq | hmem
      · obtain ⟨rfl, rfl⟩ := Prod.mk.inj heq
        rw [if_pos rfl]
      · have hne : k' ≠ k := by
          rintro rfl
          exact hnew (List.mem_map.mpr ⟨_, hmem, rfl⟩)
        rw [if_neg hne, ih hrest hmem]

theorem mem_keys_insert {t : Table K V} {k k₁ : K} {v : V}
    (h : k₁ ∈ (insert t k v).map Prod.fst) : k₁ = k ∨ k₁ ∈ t.map Prod.fst := by
  induction t with
  | nil => exact Or.inl (List.mem_singleton.mp h)
  | cons e rest ih =>
      obtain ⟨k', v'⟩ := e
      rw [insert] at h
      by_cases hk : k' = k
      · rw [if_pos hk] at h
        rcases List.mem_cons.mp h with heq | hmem
        · exact Or.inl heq
        · exact Or.inr (List.mem_cons_of_mem _ hmem)
      · rw [if_neg hk] at h
        rcases List.mem_cons.mp h with heq | hmem
        · exact Or.inr (by rw [heq]; exact List.mem_cons_self ..)
        · exact (ih hmem).imp_right (List.mem_cons_of_mem _)

/-- No key gets two pairs by an insertion. -/
theorem insert_nodup {t : Table K V} (h : (t.map Prod.fst).Nodup) (k : K) (v : V) :
    ((insert t k v).map Prod.fst).Nodup := by
  induction t with
  | nil => exact List.nodup_cons.mpr ⟨List.not_mem_nil, List.nodup_nil⟩
  | cons e rest ih =>
      obtain ⟨k', v'⟩ := e
      obtain ⟨hnew, hrest⟩ := List.nodup_cons.mp h
      rw [insert]
      by_cases hk : k' = k
      · rw [if_pos hk]
        refine List.nodup_cons.mpr ⟨?_, hrest⟩
        rw [← hk]
        exact hnew
      · rw [if_neg hk]
        refine List.nodup_cons.mpr ⟨fun hmem => ?_, ih hrest⟩
        rcases mem_keys_insert hmem with heq | hmem
        · exact hk heq
        · exact hnew hmem

omit [DecidableEq K] in
theorem filter_nodup {t : Table K V} (h : (t.map Prod.fst).Nodup) (p : K × V → Bool) :
    ((t.filter p).map Prod.fst).Nodup :=
  h.sublist (List.filter_sublist.map Prod.fst)

end Keys

/-! ## Trees keyed by paths -/

section Paths

variable [DecidableEq α]

/-- A path below `src` named from `dst` instead. -/
def rebase (src dst k : List α) : List α :=
  if src <+: k then dst ++ k.drop src.length else k

/-- Carry the subtree at `src` to `dst`, replacing what is there. -/
def move (t : Table (List α) V) (src dst : List α) : Table (List α) V :=
  (t.filter (fun e => !decide (dst <+: e.1))).map
    (fun e => (rebase src dst e.1, e.2))

/-- The entries directly below a path, by their last component. -/
def children (t : Table (List α) V) (dir : List α) : List (α × V) :=
  t.filterMap (fun e =>
    match e.1.getLast? with
    | none => none
    | some n => if e.1 = dir ++ [n] then some (n, e.2) else none)

/-- Looking up a rebased key is looking up any key with that image. -/
theorem get_map_rebase {src dst k : List α} (k' : List α) :
    ∀ (t : Table (List α) V),
      (∀ e ∈ t, rebase src dst e.1 = k ↔ e.1 = k') →
      get (t.map (fun e => (rebase src dst e.1, e.2))) k = get t k' := by
  intro t
  induction t with
  | nil => intro _; rfl
  | cons e rest ih =>
      intro h
      obtain ⟨k₀, v₀⟩ := e
      have hrest := ih (fun e he => h e (List.mem_cons_of_mem _ he))
      have hhead : rebase src dst k₀ = k ↔ k₀ = k' :=
        h (k₀, v₀) (List.mem_cons_self ..)
      rw [List.map_cons, get_cons, get_cons, hrest]
      by_cases h1 : k₀ = k'
      · rw [if_pos h1, if_pos (hhead.mpr h1)]
      · rw [if_neg h1, if_neg (fun h2 => h1 (hhead.mp h2))]

/-- Nothing is found under a key no pair is mapped to. -/
theorem get_map_rebase_none {src dst k : List α} :
    ∀ (t : Table (List α) V), (∀ e ∈ t, rebase src dst e.1 ≠ k) →
      get (t.map (fun e => (rebase src dst e.1, e.2))) k = none := by
  intro t
  induction t with
  | nil => intro _; rfl
  | cons e rest ih =>
      intro h
      rw [List.map_cons, get_cons,
        if_neg (h e (List.mem_cons_self ..)),
        ih (fun e he => h e (List.mem_cons_of_mem _ he))]

theorem rebase_below {src dst k : List α} (s : List α) (h : k = src ++ s) :
    rebase src dst k = dst ++ s := by
  subst h
  rw [rebase, if_pos (List.prefix_append _ _), List.drop_left]

theorem rebase_elsewhere {src dst k : List α} (h : ¬ src <+: k) :
    rebase src dst k = k := by
  rw [rebase, if_neg h]

/-- **MOVING A SUBTREE**: below the new place stands what was below the old
    one, below the old place stands nothing, and everything else is as it
    was. -/
theorem get_move (t : Table (List α) V) {src dst : List α}
    (hsd : ¬ src <+: dst) (hds : ¬ dst <+: src) (k : List α) :
    get (move t src dst) k
      = if dst <+: k then get t (src ++ k.drop dst.length)
        else if src <+: k then none else get t k := by
  -- what stood below the new place is gone before anything moves there
  have hkeys : ∀ e ∈ t.filter (fun e => !decide (dst <+: e.1)),
      ¬ dst <+: e.1 := by
    intro e he hp
    have := (List.mem_filter.mp he).2
    simp [hp] at this
  have hsrc : ∀ s : List α, ¬ dst <+: src ++ s := by
    intro s hp
    rcases List.prefix_or_prefix_of_prefix hp (List.prefix_append src s) with h | h
    · exact hds h
    · exact hsd h
  rw [move]
  by_cases hk : dst <+: k
  · rw [if_pos hk]
    obtain ⟨s, hs⟩ := hk
    subst hs
    rw [List.drop_left, get_map_rebase (src ++ s),
      get_filter t (fun k' => !decide (dst <+: k')),
      if_pos (by simp [hsrc s])]
    intro e he
    constructor
    · intro heq
      by_cases hp : src <+: e.1
      · obtain ⟨s', hs'⟩ := hp
        rw [rebase_below s' hs'.symm] at heq
        rw [← hs', List.append_cancel_left heq]
      · rw [rebase_elsewhere hp] at heq
        exact absurd ⟨s, heq.symm⟩ (hkeys e he)
    · intro heq
      exact rebase_below s heq
  · rw [if_neg hk]
    by_cases hp : src <+: k
    -- below the old place nothing is left
    · rw [if_pos hp]
      refine get_map_rebase_none _ ?_
      intro e he heq
      by_cases hpe : src <+: e.1
      · obtain ⟨s', hs'⟩ := hpe
        rw [rebase_below s' hs'.symm] at heq
        exact hk ⟨s', heq⟩
      · rw [rebase_elsewhere hpe] at heq
        rw [heq] at hpe
        exact hpe hp
    · rw [if_neg hp, get_map_rebase k,
        get_filter t (fun k' => !decide (dst <+: k')), if_pos (by simp [hk])]
      intro e he
      constructor
      · intro heq
        by_cases hpe : src <+: e.1
        · obtain ⟨s', hs'⟩ := hpe
          rw [rebase_below s' hs'.symm] at heq
          exact absurd ⟨s', heq⟩ hk
        · rw [rebase_elsewhere hpe] at heq
          exact heq
      · intro heq
        rw [heq]
        exact rebase_elsewhere hp

/-- Moving a subtree gives no path two entries. -/
theorem move_nodup {t : Table (List α) V} (h : (t.map Prod.fst).Nodup) (src dst : List α) :
    ((move t src dst).map Prod.fst).Nodup := by
  have hkept : ((t.filter fun e => !decide (dst <+: e.1)).map Prod.fst).Nodup := filter_nodup h _
  have hnot : ∀ k ∈ (t.filter fun e => !decide (dst <+: e.1)).map Prod.fst, ¬ dst <+: k := by
    intro k hk hp
    obtain ⟨e, he, rfl⟩ := List.mem_map.mp hk
    have := (List.mem_filter.mp he).2
    simp [hp] at this
  have hkeys : (move t src dst).map Prod.fst
      = ((t.filter fun e => !decide (dst <+: e.1)).map Prod.fst).map (rebase src dst) := by
    rw [move, List.map_map, List.map_map]
    rfl
  rw [hkeys]
  refine List.pairwise_map.mpr (hkept.imp_of_mem ?_)
  intro k k' hk hk' hne heq
  refine hne ?_
  -- what is below `src` lands below `dst`, where nothing else is left
  by_cases h1 : src <+: k
  · obtain ⟨m, rfl⟩ := h1
    rw [rebase_below m rfl] at heq
    by_cases h2 : src <+: k'
    · obtain ⟨m', rfl⟩ := h2
      rw [rebase_below m' rfl] at heq
      rw [List.append_cancel_left heq]
    · rw [rebase_elsewhere h2] at heq
      exact absurd ⟨m, heq⟩ (hnot k' hk')
  · rw [rebase_elsewhere h1] at heq
    by_cases h2 : src <+: k'
    · obtain ⟨m', rfl⟩ := h2
      rw [rebase_below m' rfl] at heq
      exact absurd ⟨m', heq.symm⟩ (hnot k hk)
    · rw [rebase_elsewhere h2] at heq
      exact heq

/-- The children of a path are the entries one component below it. -/
theorem mem_children {t : Table (List α) V} {dir : List α} {n : α} {v : V} :
    (n, v) ∈ children t dir ↔ (dir ++ [n], v) ∈ t := by
  rw [children, List.mem_filterMap]
  constructor
  · rintro ⟨e, he, hsome⟩
    cases hl : e.1.getLast? with
    | none => simp [hl] at hsome
    | some m =>
        simp only [hl] at hsome
        by_cases hd : e.1 = dir ++ [m]
        · rw [if_pos hd] at hsome
          obtain ⟨rfl, rfl⟩ := Prod.mk.inj (Option.some.inj hsome)
          rw [← hd]
          exact he
        · rw [if_neg hd] at hsome
          exact nomatch hsome
  · intro h
    refine ⟨(dir ++ [n], v), h, ?_⟩
    simp

/-- The children of a path are told apart by their names. -/
theorem children_nodup {t : Table (List α) V} (hkeys : (t.map Prod.fst).Nodup) (dir : List α) :
    ((children t dir).map Prod.fst).Nodup := by
  induction t with
  | nil => exact List.Pairwise.nil
  | cons e rest ih =>
      obtain ⟨k, v⟩ := e
      obtain ⟨hnew, hrest⟩ := List.nodup_cons.mp hkeys
      have htail := ih hrest
      by_cases hk : ∃ n, k = dir ++ [n]
      · obtain ⟨n, rfl⟩ := hk
        have hcons : children ((dir ++ [n], v) :: rest) dir = (n, v) :: children rest dir := by
          simp [children]
        rw [hcons]
        refine List.nodup_cons.mpr ⟨?_, htail⟩
        intro hmem
        obtain ⟨⟨n', v'⟩, hc, rfl⟩ := List.mem_map.mp hmem
        exact hnew (List.mem_map.mpr ⟨_, mem_children.mp hc, rfl⟩)
      · have hskip : children ((k, v) :: rest) dir = children rest dir := by
          refine List.filterMap_cons_none ?_
          cases hl : k.getLast? with
          | none => rfl
          | some n => exact if_neg fun heq => hk ⟨n, heq⟩
        rw [hskip]
        exact htail

end Paths

/-! ## Values with identities

    Where values carry an identity, no two keys should have values of the
    same one, and the identities still to be given out should be new. -/

section Identities

variable [DecidableEq K]

/-- Identities are below `next`, and each is found under one key only. -/
structure Identified (ident : V → Nat) (t : Table K V) (next : Nat) : Prop where
  below : ∀ {k : K} {v : V}, get t k = some v → ident v < next
  unique : ∀ {k k' : K} {v v' : V}, get t k = some v → get t k' = some v' →
    ident v = ident v' → k = k'

variable {ident : V → Nat} {t : Table K V} {next : Nat}

/-- A value with the next identity may be put anywhere. -/
theorem Identified.insert_new (h : Identified ident t next) (k : K) {v : V}
    (hv : ident v = next) : Identified ident (t.insert k v) (next + 1) := by
  refine ⟨?_, ?_⟩
  · intro k₁ v₁ h1
    rw [get_insert] at h1
    by_cases hk : k = k₁
    · rw [if_pos hk] at h1
      rw [← Option.some.inj h1, hv]
      exact Nat.lt_succ_self next
    · rw [if_neg hk] at h1
      exact Nat.lt_succ_of_lt (h.below h1)
  · intro k₁ k₂ v₁ v₂ h1 h2 hid
    rw [get_insert] at h1 h2
    by_cases hk1 : k = k₁
    · by_cases hk2 : k = k₂
      · exact hk1.symm.trans hk2
      · -- the new identity is none of the old ones
        rw [if_pos hk1] at h1
        rw [if_neg hk2] at h2
        have := h.below h2
        rw [← hid, ← Option.some.inj h1, hv] at this
        exact absurd this (Nat.lt_irrefl next)
    · rw [if_neg hk1] at h1
      by_cases hk2 : k = k₂
      · rw [if_pos hk2] at h2
        have := h.below h1
        rw [hid, ← Option.some.inj h2, hv] at this
        exact absurd this (Nat.lt_irrefl next)
      · rw [if_neg hk2] at h2
        exact h.unique h1 h2 hid

/-- A value may be replaced by one of the same identity. -/
theorem Identified.insert_same (h : Identified ident t next) {k : K} {v v' : V}
    (hk : get t k = some v) (hv : ident v' = ident v) :
    Identified ident (t.insert k v') next := by
  -- whatever is found now, something of its identity was found there before
  have hback : ∀ {k₁ : K} {v₁ : V}, get (t.insert k v') k₁ = some v₁ →
      ∃ v₀, get t k₁ = some v₀ ∧ ident v₀ = ident v₁ := by
    intro k₁ v₁ h1
    rw [get_insert] at h1
    by_cases hk1 : k = k₁
    · rw [if_pos hk1] at h1
      exact ⟨v, by rw [← hk1, hk], by rw [← Option.some.inj h1, hv]⟩
    · rw [if_neg hk1] at h1
      exact ⟨v₁, h1, rfl⟩
  refine ⟨?_, ?_⟩
  · intro k₁ v₁ h1
    obtain ⟨v₀, h0, hid⟩ := hback h1
    rw [← hid]
    exact h.below h0
  · intro k₁ k₂ v₁ v₂ h1 h2 hid
    obtain ⟨w₁, hw1, hid1⟩ := hback h1
    obtain ⟨w₂, hw2, hid2⟩ := hback h2
    exact h.unique hw1 hw2 (hid1.trans (hid.trans hid2.symm))

theorem Identified.erase (h : Identified ident t next) (k : K) :
    Identified ident (t.erase k) next := by
  have hback : ∀ {k₁ : K} {v₁ : V}, get (t.erase k) k₁ = some v₁ → get t k₁ = some v₁ := by
    intro k₁ v₁ h1
    rw [get_erase] at h1
    by_cases hk : k = k₁
    · rw [if_pos hk] at h1
      exact nomatch h1
    · rw [if_neg hk] at h1
      exact h1
  exact ⟨fun h1 => h.below (hback h1), fun h1 h2 => h.unique (hback h1) (hback h2)⟩

end Identities

section IdentitiesOfPaths

variable [DecidableEq α] {ident : V → Nat} {t : Table (List α) V} {next : Nat}

/-- What is found after a move was found before it: below the new place what
    was below the old one, elsewhere what was there. -/
theorem get_move_back {src dst k : List α} {v : V} (hsd : ¬ src <+: dst) (hds : ¬ dst <+: src)
    (h : get (move t src dst) k = some v) :
    (∃ s, k = dst ++ s ∧ get t (src ++ s) = some v)
      ∨ (¬ dst <+: k ∧ ¬ src <+: k ∧ get t k = some v) := by
  rw [get_move t hsd hds] at h
  by_cases hk : dst <+: k
  · rw [if_pos hk] at h
    obtain ⟨s, rfl⟩ := hk
    rw [List.drop_left] at h
    exact Or.inl ⟨s, rfl, h⟩
  · rw [if_neg hk] at h
    by_cases hp : src <+: k
    · rw [if_pos hp] at h
      exact nomatch h
    · rw [if_neg hp] at h
      exact Or.inr ⟨hk, hp, h⟩

theorem Identified.move (h : Identified ident t next) {src dst : List α}
    (hsd : ¬ src <+: dst) (hds : ¬ dst <+: src) :
    Identified ident (Table.move t src dst) next := by
  refine ⟨?_, ?_⟩
  · intro k v hk
    rcases get_move_back hsd hds hk with ⟨s, -, h1⟩ | ⟨-, -, h1⟩
    · exact h.below h1
    · exact h.below h1
  · intro k k' v v' hk hk' hid
    rcases get_move_back hsd hds hk with ⟨s, rfl, h1⟩ | ⟨hd, hs, h1⟩
    · rcases get_move_back hsd hds hk' with ⟨s', rfl, h2⟩ | ⟨-, hs', h2⟩
      · rw [List.append_cancel_left (h.unique h1 h2 hid)]
      · -- one is below the old place, the other is not
        have heq := h.unique h1 h2 hid
        exact absurd ⟨s, heq⟩ hs'
    · rcases get_move_back hsd hds hk' with ⟨s', rfl, h2⟩ | ⟨-, -, h2⟩
      · have heq := h.unique h1 h2 hid
        exact absurd ⟨s', heq.symm⟩ hs
      · exact h.unique h1 h2 hid

end IdentitiesOfPaths

end Table

end TokimoTable
