import Mathlib

/-! # File trees — directories and files under lists of names

    A tree says what stands under each list of names.  In a rooted tree the
    empty list is a directory, and whatever stands somewhere stands in one.

    `find` walks a list of names down the tree and tells how it fails, and
    `find_concat` tells what one more name leads to.  The updates are those
    of a file system: put an entry, erase one, and move a whole subtree. -/

namespace TokimoFileTree

variable {N B : Type}

/-- A directory, or a file with its body. -/
inductive Entry (B : Type) where
  | dir
  | file (b : B)
  deriving DecidableEq, Repr

/-- Whether it is a directory. -/
def Entry.isDir : Entry B → Bool
  | .dir => true
  | .file _ => false

/-- What stands under each list of names. -/
abbrev View (N B : Type) := List N → Option (Entry B)

/-- The root is a directory, and whatever stands somewhere stands in one. -/
structure Rooted (v : View N B) : Prop where
  root : v [] = some .dir
  parent : ∀ (ns : List N) (n : N), v (ns ++ [n]) ≠ none → v ns = some .dir

/-- Nothing stands in what is not a directory. -/
theorem Rooted.bare {v : View N B} (hv : Rooted v) {ns : List N} (h : v ns ≠ some .dir) :
    ∀ (n : N) (ms : List N), v (ns ++ n :: ms) = none := by
  intro n ms
  induction ms using List.reverseRecOn with
  | nil =>
      cases hn : v (ns ++ [n]) with
      | none => rfl
      | some e => exact absurd (hv.parent ns n (by rw [hn]; exact Option.some_ne_none e)) h
  | append_singleton ms m ih =>
      have hcat : ns ++ n :: (ms ++ [m]) = (ns ++ n :: ms) ++ [m] := by simp
      cases hm : v (ns ++ n :: (ms ++ [m])) with
      | none => rfl
      | some e =>
          have hdir := hv.parent (ns ++ n :: ms) m (by
            rw [← hcat, hm]
            exact Option.some_ne_none e)
          rw [ih] at hdir
          exact nomatch hdir

/-! ## Walking down -/

/-- What a list of names leads to: an entry, a free name in a directory, or
    nowhere, as a directory on the way is missing, or is a file. -/
inductive Found (B : Type) where
  | there (e : Entry B)
  | free
  | lost
  | blocked
  deriving DecidableEq, Repr

/-- Walk names down from a directory. -/
def findFrom (v : View N B) : List N → List N → Found B
  | _, [] => .there .dir
  | d, n :: ns =>
      match v (d ++ [n]) with
      | none => if ns.isEmpty then .free else .lost
      | some .dir => findFrom v (d ++ [n]) ns
      | some (.file b) => if ns.isEmpty then .there (.file b) else .blocked

/-- Walk names down from the root. -/
def find (v : View N B) (ns : List N) : Found B := findFrom v [] ns

/-- What one more name leads to, behind what was found. -/
def Found.enter (e : Option (Entry B)) : Found B → Found B
  | .there .dir =>
      match e with
      | none => .free
      | some e => .there e
  | .there (.file _) => .blocked
  | .free => .lost
  | .lost => .lost
  | .blocked => .blocked

/-- One name is looked up where it is. -/
theorem findFrom_single (v : View N B) (d : List N) (n : N) :
    findFrom v d [n] = (Found.there .dir).enter (v (d ++ [n])) := by
  rw [findFrom]
  cases v (d ++ [n]) with
  | none => rfl
  | some e =>
      cases e with
      | dir => rfl
      | file b => rfl

/-- A name more is looked up behind what the others lead to. -/
theorem findFrom_concat (v : View N B) (n : N) :
    ∀ (ns d : List N), findFrom v d (ns ++ [n]) = (findFrom v d ns).enter (v (d ++ ns ++ [n])) := by
  intro ns
  induction ns with
  | nil =>
      intro d
      rw [List.nil_append, List.append_nil, findFrom_single]
      rfl
  | cons m ns ih =>
      intro d
      have hcat : d ++ m :: ns ++ [n] = (d ++ [m]) ++ ns ++ [n] := by simp
      rw [List.cons_append, findFrom, findFrom, hcat]
      have hne : (ns ++ [n]).isEmpty = false := by
        cases ns with
        | nil => rfl
        | cons a l => rfl
      cases hm : v (d ++ [m]) with
      | none =>
          simp only [hne, Bool.false_eq_true, if_false]
          cases ns with
          | nil => rfl
          | cons a l => rfl
      | some e =>
          cases e with
          | dir => exact ih (d ++ [m])
          | file b =>
              simp only [hne, Bool.false_eq_true, if_false]
              cases ns with
              | nil => rfl
              | cons a l => rfl

/-- No names lead to the root. -/
theorem find_nil (v : View N B) : find v [] = .there .dir := rfl

/-- **ONE MORE NAME** leads on only from a directory. -/
theorem find_concat (v : View N B) (ns : List N) (n : N) :
    find v (ns ++ [n]) = (find v ns).enter (v (ns ++ [n])) := findFrom_concat v n ns []

/-- What is found stands there. -/
theorem find_there {v : View N B} (hv : Rooted v) {ns : List N} {e : Entry B} :
    find v ns = .there e ↔ v ns = some e := by
  induction ns using List.reverseRecOn generalizing e with
  | nil =>
      rw [find_nil, hv.root, Found.there.injEq, Option.some.injEq]
  | append_singleton ns n ih =>
      rw [find_concat]
      constructor
      · intro h
        cases hf : find v ns with
        | there d =>
            rw [hf] at h
            cases d with
            | dir =>
                cases hn : v (ns ++ [n]) with
                | none => rw [hn] at h; exact nomatch h
                | some e' => rw [hn] at h; rw [Found.there.inj h]
            | file b => exact nomatch h
        | free => rw [hf] at h; exact nomatch h
        | lost => rw [hf] at h; exact nomatch h
        | blocked => rw [hf] at h; exact nomatch h
      · intro h
        have hdir := hv.parent ns n (by rw [h]; exact Option.some_ne_none e)
        rw [ih.mpr hdir, h]
        rfl

/-- A free name is one in a directory. -/
theorem find_free {v : View N B} (hv : Rooted v) {ns : List N} {n : N} :
    find v (ns ++ [n]) = .free ↔ v ns = some .dir ∧ v (ns ++ [n]) = none := by
  rw [find_concat]
  constructor
  · intro h
    cases hf : find v ns with
    | there d =>
        rw [hf] at h
        cases d with
        | dir =>
            refine ⟨(find_there hv).mp hf, ?_⟩
            cases hn : v (ns ++ [n]) with
            | none => rfl
            | some e' => rw [hn] at h; exact nomatch h
        | file b => exact nomatch h
    | free => rw [hf] at h; exact nomatch h
    | lost => rw [hf] at h; exact nomatch h
    | blocked => rw [hf] at h; exact nomatch h
  · rintro ⟨hdir, hn⟩
    rw [(find_there hv).mpr hdir, hn]
    rfl

/-! ## Updates -/

/-- What does not lie above a name does not lie above its parent. -/
theorem not_prefix_parent {ns ms : List N} {n : N} (h : ¬ ns <+: ms ++ [n]) : ¬ ns <+: ms :=
  fun hp => h (hp.trans (List.prefix_append ms [n]))

section Updates

variable [DecidableEq N]

/-- Let an entry stand under the names. -/
def put (v : View N B) (ns : List N) (e : Entry B) : View N B :=
  fun ms => if ns = ms then some e else v ms

/-- What is left without one list of names. -/
def erase (v : View N B) (ns : List N) : View N B :=
  fun ms => if ns = ms then none else v ms

/-- Let what stands under `src`, and below it, stand under `dst`. -/
def move (v : View N B) (src dst : List N) : View N B :=
  fun ms =>
    if dst <+: ms then v (src ++ ms.drop dst.length) else if src <+: ms then none else v ms

/-- What was put is there. -/
theorem put_self (v : View N B) (ns : List N) (e : Entry B) : put v ns e ns = some e :=
  if_pos rfl

/-- The second thing put in a place is what stays. -/
theorem put_put (v : View N B) (ns : List N) (e e' : Entry B) :
    put (put v ns e) ns e' = put v ns e' := by
  funext ms
  rw [put, put, put]
  by_cases h : ns = ms
  · rw [if_pos h, if_pos h]
  · rw [if_neg h, if_neg h, if_neg h]

/-- Putting back what is there changes nothing. -/
theorem put_same {v : View N B} {ns : List N} {e : Entry B} (h : v ns = some e) :
    put v ns e = v := by
  funext ms
  rw [put]
  by_cases hms : ns = ms
  · rw [if_pos hms, ← hms, h]
  · rw [if_neg hms]

variable {v : View N B}

/-- In a directory an entry may be put that hides none. -/
theorem Rooted.put (hv : Rooted v) {ns : List N} {n : N} (hdir : v ns = some .dir)
    (hn : v (ns ++ [n]) ≠ some .dir) (e : Entry B) : Rooted (put v (ns ++ [n]) e) := by
  refine ⟨?_, ?_⟩
  · rw [TokimoFileTree.put, if_neg (by simp)]
    exact hv.root
  · intro ms m hm
    rw [TokimoFileTree.put] at hm ⊢
    by_cases hself : ns ++ [n] = ms ++ [m]
    · obtain ⟨rfl, -⟩ := List.append_inj' hself rfl
      rw [if_neg (by simp)]
      exact hdir
    · rw [if_neg hself] at hm
      by_cases habove : ns ++ [n] = ms
      · -- nothing stands in what is no directory
        rw [← habove] at hm
        exact absurd (hv.bare hn m []) hm
      · rw [if_neg habove]
        exact hv.parent ms m hm

/-- A file may get other contents. -/
theorem Rooted.refill (hv : Rooted v) {ns : List N} {b : B} (hfile : v ns = some (.file b))
    (b' : B) : Rooted (TokimoFileTree.put v ns (.file b')) := by
  rcases List.eq_nil_or_concat ns with rfl | ⟨init, n, hcat⟩
  · rw [hv.root] at hfile
    exact nomatch hfile
  · rw [List.concat_eq_append] at hcat
    subst hcat
    refine hv.put (hv.parent init n ?_) ?_ _
    · rw [hfile]
      exact Option.some_ne_none _
    · rw [hfile]
      exact fun h => nomatch h

/-- An entry that nothing stands in may be erased. -/
theorem Rooted.erase (hv : Rooted v) {ns : List N} (hne : ns ≠ [])
    (hbare : ∀ n, v (ns ++ [n]) = none) : Rooted (erase v ns) := by
  refine ⟨?_, ?_⟩
  · rw [TokimoFileTree.erase, if_neg hne]
    exact hv.root
  · intro ms m hm
    rw [TokimoFileTree.erase] at hm ⊢
    by_cases hself : ns = ms ++ [m]
    · rw [if_pos hself] at hm
      exact absurd rfl hm
    · rw [if_neg hself] at hm
      by_cases habove : ns = ms
      · rw [← habove] at hm
        exact absurd (hbare m) hm
      · rw [if_neg habove]
        exact hv.parent ms m hm

/-- A subtree may be moved into a directory outside it. -/
theorem Rooted.move (hv : Rooted v) {src dst : List N} {n : N} (hdir : v dst = some .dir)
    (hsd : ¬ src <+: dst ++ [n]) :
    Rooted (move v src (dst ++ [n])) := by
  refine ⟨?_, ?_⟩
  · have hd : ¬ dst ++ [n] <+: [] := fun h => absurd (List.prefix_nil.mp h) (by simp)
    have hs : ¬ src <+: [] := by
      intro h
      rw [List.prefix_nil.mp h] at hsd
      exact hsd (List.nil_prefix)
    rw [TokimoFileTree.move, if_neg hd, if_neg hs]
    exact hv.root
  · intro ms m hm
    rw [TokimoFileTree.move] at hm ⊢
    by_cases hd : dst ++ [n] <+: ms
    · -- inside what was moved
      obtain ⟨rest, rfl⟩ := hd
      rw [if_pos ⟨rest ++ [m], by simp⟩, List.append_assoc, List.drop_left,
        ← List.append_assoc] at hm
      rw [if_pos (List.prefix_append _ _), List.drop_left]
      exact hv.parent _ m hm
    · rw [if_neg hd]
      by_cases hd' : dst ++ [n] <+: ms ++ [m]
      · -- what was moved itself, and its new directory stays in place
        have heq : dst ++ [n] = ms ++ [m] :=
          (List.prefix_concat_iff.mp hd').resolve_right hd
        obtain ⟨rfl, -⟩ := List.append_inj' heq rfl
        rw [if_neg (not_prefix_parent hsd)]
        exact hdir
      · rw [if_neg hd'] at hm
        by_cases hs : src <+: ms ++ [m]
        · rw [if_pos hs] at hm
          exact absurd rfl hm
        · rw [if_neg hs] at hm
          rw [if_neg (not_prefix_parent hs)]
          exact hv.parent ms m hm

/-! ### The names of a tree -/

/-- The names in a tree have `P`. -/
def Within (P : N → Prop) (v : View N B) : Prop := ∀ ns, v ns ≠ none → ∀ n ∈ ns, P n

variable {P : N → Prop} {ns : List N}

/-- A good list of names may be filled. -/
theorem Within.put (h : Within P v) (hns : ∀ n ∈ ns, P n) (e : Entry B) :
    Within P (put v ns e) := by
  intro ms hms
  rw [TokimoFileTree.put] at hms
  by_cases heq : ns = ms
  · rw [← heq]
    exact hns
  · rw [if_neg heq] at hms
    exact h ms hms

/-- And one may be taken away. -/
theorem Within.erase (h : Within P v) (ns : List N) : Within P (erase v ns) := by
  intro ms hms
  rw [TokimoFileTree.erase] at hms
  by_cases heq : ns = ms
  · rw [if_pos heq] at hms
    exact absurd rfl hms
  · rw [if_neg heq] at hms
    exact h ms hms

/-- And moved to where the names are good. -/
theorem Within.move (h : Within P v) (src : List N) {dst : List N} (hdst : ∀ n ∈ dst, P n) :
    Within P (move v src dst) := by
  intro ms hms
  rw [TokimoFileTree.move] at hms
  by_cases hd : dst <+: ms
  · obtain ⟨rest, rfl⟩ := hd
    rw [if_pos (List.prefix_append _ _), List.drop_left] at hms
    intro n hn
    rcases List.mem_append.mp hn with hn | hn
    · exact hdst n hn
    · exact h _ hms n (List.mem_append.mpr (Or.inr hn))
  · rw [if_neg hd] at hms
    by_cases hs : src <+: ms
    · rw [if_pos hs] at hms
      exact absurd rfl hms
    · rw [if_neg hs] at hms
      exact h ms hms

end Updates

end TokimoFileTree
