import Mathlib

/-! # Option strings: `key=value` items with a separator between them

    A value runs to the next separator, and a separator that is doubled stands
    for itself.  The first item may be a value alone, of a key that is implied;
    any other item without an assignment is a bare word.

    Who writes values into such a string without doubling anything gets them
    back exactly when there is nothing to double.  That holds as well when the
    writer shows a mark in place of what it cannot show. -/

namespace TokimoOption

variable {α : Type}

/-! ## What a writer shows of a value -/

/-- A text that shows a value: as it is, except that a mark may stand where
    the value goes on without one. -/
inductive Shown (mark : List α) : List α → List α → Prop where
  | nil : Shown mark [] []
  | keep (b : α) {d v : List α} : Shown mark d v → Shown mark (b :: d) (b :: v)
  | lose (x : List α) {d v : List α} : ¬ mark <+: x ++ v → Shown mark d v →
      Shown mark (mark ++ d) (x ++ v)

/-- A text shows itself. -/
theorem Shown.refl (mark v : List α) : Shown mark v v := by
  induction v with
  | nil => exact .nil
  | cons b v ih => exact .keep b ih

/-- What stands in front is kept. -/
theorem Shown.keeps {mark d v : List α} (w : List α) (h : Shown mark d v) :
    Shown mark (w ++ d) (w ++ v) := by
  induction w with
  | nil => exact h
  | cons b w ih => exact .keep b ih

/-- What is shown before any mark is what the value begins with. -/
theorem Shown.kept {m : α} {ms k d v : List α} (hk : m ∉ k) (h : Shown (m :: ms) (k ++ d) v) :
    ∃ v', v = k ++ v' ∧ Shown (m :: ms) d v' := by
  induction k generalizing v with
  | nil => exact ⟨v, rfl, h⟩
  | cons b k ih =>
      have hb : m ≠ b := fun hb => hk (hb ▸ List.mem_cons_self)
      generalize hs : b :: k ++ d = s at h
      cases h with
      | nil => exact absurd hs (List.cons_ne_nil _ _)
      | keep c h =>
          obtain ⟨rfl, rfl⟩ := List.cons.inj hs
          obtain ⟨v', rfl, hv'⟩ := ih (fun hm => hk (List.mem_cons_of_mem _ hm)) h
          exact ⟨v', rfl, hv'⟩
      | lose x hx h => exact absurd (List.cons.inj hs).1.symm hb

/-! ## The grammar -/

/-- The grammar of an option text: what separates items and what assigns. -/
structure Grammar (α : Type) where
  sep : α
  assign : α
  /-- The item that a bare word stands for. -/
  bare : List α → List α × List α
  sep_ne_assign : sep ≠ assign

variable [DecidableEq α] (g : Grammar α)

namespace Grammar

/-- The value a text begins with, and what comes after it. -/
def value : List α → List α × List α
  | [] => ([], [])
  | [b] => if b = g.sep then ([], [b]) else ([b], [])
  | b :: c :: s =>
      if b = g.sep then
        if c = g.sep then (b :: (value s).1, (value s).2) else ([], b :: c :: s)
      else (b :: (value (c :: s)).1, (value (c :: s)).2)

/-- What may stand in a key. -/
def isName (b : α) : Bool := decide (b ≠ g.sep) && decide (b ≠ g.assign)

/-- The item a text begins with, and what comes after it. -/
def item (first : Option (List α)) (s : List α) : (List α × List α) × List α :=
  if (s.dropWhile g.isName).head? = some g.assign then
    ((s.takeWhile g.isName, (g.value (s.dropWhile g.isName).tail).1),
      (g.value (s.dropWhile g.isName).tail).2)
  else
    match first with
    | some key => ((key, (g.value s).1), (g.value s).2)
    | none => (g.bare (s.takeWhile g.isName), s.dropWhile g.isName)

/-- All items of a text. -/
def parse (first : Option (List α)) (s : List α) : List (List α × List α) :=
  go s.length first s
where
  go : Nat → Option (List α) → List α → List (List α × List α)
    | 0, _, _ => []
    | _ + 1, _, [] => []
    | n + 1, first, b :: s =>
        (g.item first (b :: s)).1 :: go n none ((g.item first (b :: s)).2.drop 1)

/-! ## Reading one value -/

/-- Nothing is left of nothing. -/
@[simp] theorem value_nil : g.value [] = ([], []) := rfl

/-- A doubled separator is one in the value. -/
theorem value_double (s : List α) :
    g.value (g.sep :: g.sep :: s) = (g.sep :: (g.value s).1, (g.value s).2) := by
  rw [value, if_pos rfl, if_pos rfl]

/-- A single one ends the value. -/
theorem value_sep {s : List α} (h : s.head? ≠ some g.sep) :
    g.value (g.sep :: s) = ([], g.sep :: s) := by
  cases s with
  | nil => rw [value, if_pos rfl]
  | cons c s =>
      have hc : c ≠ g.sep := fun hc => h (congrArg some hc)
      rw [value, if_pos rfl, if_neg hc]

/-- So does one before anything else. -/
theorem value_alone {c : α} (h : c ≠ g.sep) (s : List α) :
    g.value (g.sep :: c :: s) = ([], g.sep :: c :: s) :=
  value_sep g fun hc => h (Option.some.inj hc)

/-- Anything but a separator is part of the value. -/
theorem value_cons {b : α} (h : b ≠ g.sep) (s : List α) :
    g.value (b :: s) = (b :: (g.value s).1, (g.value s).2) := by
  cases s with
  | nil =>
      show g.value [b] = ([b], [])
      rw [value, if_neg h]
  | cons c s => rw [value, if_neg h]

/-- So is a word without separators. -/
theorem value_plain {w : List α} (h : g.sep ∉ w) (s : List α) :
    g.value (w ++ s) = (w ++ (g.value s).1, (g.value s).2) := by
  induction w with
  | nil => rfl
  | cons b w ih =>
      have hb : b ≠ g.sep := fun hb => h (hb ▸ List.mem_cons_self)
      have hw : g.sep ∉ w := fun hw => h (List.mem_cons_of_mem _ hw)
      rw [List.cons_append, value_cons g hb, ih hw]
      rfl

/-- Reading a value leaves no more than there was. -/
theorem value_rest_length (s : List α) : (g.value s).2.length ≤ s.length := by
  induction s using Grammar.value.induct g with
  | case1 => exact Nat.le_refl _
  | case2 => rw [value, if_pos rfl]
  | case3 b hb => rw [value, if_neg hb]; exact Nat.zero_le _
  | case4 s ih =>
      rw [value_double]
      exact Nat.le_succ_of_le (Nat.le_succ_of_le ih)
  | case5 c s hc => rw [value, if_pos rfl, if_neg hc]
  | case6 b c s hb ih =>
      rw [value_cons g hb]
      exact Nat.le_succ_of_le ih

/-! ## Reading item by item -/

/-- Nor does reading an item. -/
theorem item_rest_length (first : Option (List α)) (s : List α) :
    (g.item first s).2.length ≤ s.length := by
  have hdrop : (s.dropWhile g.isName).length ≤ s.length := List.length_dropWhile_le _ _
  unfold item
  split
  · have htail : (s.dropWhile g.isName).tail.length ≤ s.length := by
      rw [List.length_tail]
      omega
    exact Nat.le_trans (g.value_rest_length _) htail
  · cases first with
    | some key => exact g.value_rest_length s
    | none => exact hdrop

/-- Without its separator what is left is shorter, so `parse` ends. -/
theorem item_rest_drop (first : Option (List α)) (b : α) (s : List α) :
    ((g.item first (b :: s)).2.drop 1).length ≤ s.length := by
  have hlen := g.item_rest_length first (b :: s)
  rw [List.length_cons] at hlen
  rw [List.length_drop]
  omega

/-- Fuel beyond the length of the text makes no difference. -/
theorem parse_go {m n : Nat} {first : Option (List α)} {s : List α} (hm : s.length ≤ m)
    (hn : s.length ≤ n) : parse.go g m first s = parse.go g n first s := by
  induction m generalizing n first s with
  | zero =>
      have hs : s = [] := List.eq_nil_of_length_eq_zero (Nat.le_zero.mp hm)
      subst hs
      cases n with
      | zero => rfl
      | succ n => rfl
  | succ m ih =>
      cases s with
      | nil =>
          cases n with
          | zero => rfl
          | succ n => rfl
      | cons b s =>
          cases n with
          | zero => exact absurd hn (Nat.not_succ_le_zero _)
          | succ n =>
              have hrest := g.item_rest_drop first b s
              have hm' : s.length ≤ m := Nat.le_of_succ_le_succ hm
              have hn' : s.length ≤ n := Nat.le_of_succ_le_succ hn
              rw [parse.go, parse.go, ih (Nat.le_trans hrest hm') (Nat.le_trans hrest hn')]

/-- The first item of a text, and the items behind it. -/
theorem parse_cons {s : List α} (first : Option (List α)) (h : s ≠ []) :
    g.parse first s = (g.item first s).1 :: g.parse none ((g.item first s).2.drop 1) := by
  cases s with
  | nil => exact absurd rfl h
  | cons b s =>
      show parse.go g (s.length + 1) first (b :: s) = _
      rw [parse.go, g.parse_go (g.item_rest_drop first b s) (Nat.le_refl _)]
      rfl

/-! ## Names in front -/

/-- A key in front is passed over. -/
theorem dropWhile_names {k : List α} (hk : ∀ b ∈ k, g.isName b = true) (s : List α) :
    (k ++ s).dropWhile g.isName = s.dropWhile g.isName :=
  List.dropWhile_append_of_pos hk

/-- A key in front is taken. -/
theorem takeWhile_names {k : List α} (hk : ∀ b ∈ k, g.isName b = true) (s : List α) :
    (k ++ s).takeWhile g.isName = k ++ s.takeWhile g.isName :=
  List.takeWhile_append_of_pos hk

/-- A separator is no part of a key. -/
theorem isName_sep : g.isName g.sep = false := by simp [isName]

/-- Nor is what assigns. -/
theorem isName_assign : g.isName g.assign = false := by simp [isName]

/-- Everything else is. -/
theorem isName_iff {b : α} : g.isName b = true ↔ b ≠ g.sep ∧ b ≠ g.assign := by
  simp [isName]

/-- An item with a key. -/
theorem item_assign {k : List α} (hk : ∀ b ∈ k, g.isName b = true) (first : Option (List α))
    (s : List α) :
    g.item first (k ++ g.assign :: s) = ((k, (g.value s).1), (g.value s).2) := by
  have hdrop : (k ++ g.assign :: s).dropWhile g.isName = g.assign :: s := by
    rw [dropWhile_names g hk, List.dropWhile_cons_of_neg]
    rw [isName_assign]
    exact Bool.false_ne_true
  have htake : (k ++ g.assign :: s).takeWhile g.isName = k := by
    rw [takeWhile_names g hk, List.takeWhile_cons_of_neg, List.append_nil]
    rw [isName_assign]
    exact Bool.false_ne_true
  unfold item
  rw [hdrop, htake]
  exact if_pos rfl

/-- An item without one has the first word's. -/
theorem item_implied {s : List α} (key : List α)
    (h : (s.dropWhile g.isName).head? ≠ some g.assign) :
    g.item (some key) s = ((key, (g.value s).1), (g.value s).2) := by
  unfold item
  exact if_neg h

/-! ## Texts that close a value -/

/-- The end of a string, or a separator that is not doubled. -/
inductive Closed : List α → Prop where
  | nil : Closed []
  | cons {c : α} (s : List α) (h : c ≠ g.sep) : Closed (g.sep :: c :: s)

/-- A text that begins with an item's end has no value in front. -/
theorem value_closed {t : List α} (h : g.Closed t) : g.value t = ([], t) := by
  cases h with
  | nil => rfl
  | cons s h => exact value_alone g h s

/-- A word without separators in front of one is its value. -/
theorem value_before {w t : List α} (hw : g.sep ∉ w) (ht : g.Closed t) :
    g.value (w ++ t) = (w, t) := by
  rw [value_plain g hw, value_closed g ht, List.append_nil]

/-- No text read up to a closing one ends a name with an assignment. -/
theorem dropWhile_before {w t : List α} (hw : g.sep ∉ w) (ha : g.assign ∉ w) (ht : g.Closed t) :
    ((w ++ t).dropWhile g.isName).head? ≠ some g.assign := by
  have hname : ∀ b ∈ w, g.isName b = true := fun b hb =>
    g.isName_iff.mpr ⟨fun h => hw (h ▸ hb), fun h => ha (h ▸ hb)⟩
  rw [dropWhile_names g hname]
  cases ht with
  | nil => exact fun h => nomatch h
  | cons s h =>
      rw [List.dropWhile_cons_of_neg (by rw [isName_sep]; exact Bool.false_ne_true)]
      exact fun he => g.sep_ne_assign (Option.some.inj he)

end Grammar

/-! ## A reader that falls behind

    Where a value has a doubled separator, the reader of the text is one
    separator behind the value, and stays behind up to the end.  `P` holds of
    what the reader can be behind by. -/

/-- What a reader has of a value that a mark has put it behind of: it never
    catches up with the writer. -/
structure Lag (m : α) (P : List α → Prop) (tail : List α) : Prop where
  rotate : ∀ b p, P (b :: p) → P (p ++ [b])
  double : ∀ p, P p → P (p ++ [g.sep])
  lost : ∀ p, ¬ P (m :: p)
  tail : ∀ p, P p → (g.value (g.sep :: tail)).1 ≠ p ++ [g.sep]

/-- **NO CATCHING UP**: if the text reads as the value it shows, it is the value
    and has no separator. -/
theorem value_exact {m : α} {ms tail : List α} {P : List α → Prop} (lag : Lag g m P tail)
    (hm : g.sep ∉ m :: ms) (ht : g.Closed tail) {d v : List α} (h : Shown (m :: ms) d v)
    {p : List α} (hp : P p) (hv : (g.value (d ++ tail)).1 = p ++ v) :
    p = [] ∧ g.sep ∉ v ∧ d = v := by
  induction hn : d.length using Nat.strong_induction_on generalizing d v p with
  | _ n ih =>
      subst hn
      have hms : m ≠ g.sep := fun he => hm (he ▸ List.mem_cons_self)
      cases h with
      | nil =>
          rw [List.nil_append, g.value_closed ht, List.append_nil] at hv
          exact ⟨hv.symm, List.not_mem_nil, rfl⟩
      | lose x hx h =>
          -- the reader sees the mark, which neither `p` nor the value has here
          rw [List.append_assoc, g.value_plain hm] at hv
          cases p with
          | nil => exact absurd ⟨_, hv⟩ hx
          | cons b p =>
              obtain ⟨rfl, -⟩ := List.cons.inj hv
              exact absurd hp (lag.lost p)
      | @keep b d v h =>
          by_cases hb : b = g.sep
          · subst hb
            cases h with
            | nil => exact absurd hv (lag.tail p hp)
            | lose x hx h =>
                -- a separator alone closes the value before `p` has come
                have hnil : p ++ g.sep :: (x ++ _) = [] :=
                  hv.symm.trans (congrArg Prod.fst (g.value_alone hms _))
                simp at hnil
            | @keep c d v h =>
                by_cases hc : c = g.sep
                · subst hc
                  obtain ⟨q, hq, hqv⟩ : ∃ q, P (q ++ [g.sep]) ∧
                      (g.value (d ++ tail)).1 = (q ++ [g.sep]) ++ v := by
                    have hv' : g.sep :: (g.value (d ++ tail)).1 = p ++ g.sep :: g.sep :: v := by
                      rw [← hv]
                      exact (congrArg Prod.fst (g.value_double _)).symm
                    cases p with
                    | nil => exact ⟨[], lag.double [] hp, (List.cons.inj hv').2⟩
                    | cons b p =>
                        obtain ⟨rfl, hv''⟩ := List.cons.inj hv'
                        refine ⟨p ++ [g.sep], lag.double _ (lag.rotate _ p hp), ?_⟩
                        rw [hv'']
                        simp
                  obtain ⟨h1, -⟩ :=
                    ih d.length (Nat.lt_succ_of_lt (Nat.lt_succ_self _)) h hq hqv rfl
                  exact absurd h1 (by simp)
                · have hnil : p ++ g.sep :: c :: v = [] :=
                    hv.symm.trans (congrArg Prod.fst (g.value_alone hc _))
                  simp at hnil
          · have hv' : b :: (g.value (d ++ tail)).1 = p ++ b :: v := by
              rw [← hv]
              exact (congrArg Prod.fst (g.value_cons hb _)).symm
            cases p with
            | nil =>
                obtain ⟨-, h2, rfl⟩ := ih d.length (by simp) h hp (List.cons.inj hv').2 rfl
                refine ⟨rfl, fun hmem => ?_, rfl⟩
                rcases List.mem_cons.mp hmem with he | hmem
                · exact hb he.symm
                · exact h2 hmem
            | cons c p =>
                obtain ⟨rfl, hv''⟩ := List.cons.inj hv'
                have hv3 : (g.value (d ++ tail)).1 = (p ++ [b]) ++ v := by
                  rw [hv'']
                  simp
                obtain ⟨h1, -⟩ := ih d.length (by simp) h (lag.rotate b p hp) hv3 rfl
                exact absurd h1 (by simp)

/-! ## Items in a row -/

/-- An item that is written: the value it means, and the text that shows it. -/
structure Item (α : Type) where
  key : List α
  text : List α
  value : List α

/-- What an item reads as. -/
def Item.read (i : Item α) : List α × List α := (i.key, i.value)

/-- Each item after a separator, as `key=text`. -/
def write (items : List (Item α)) : List α :=
  items.flatMap fun i => g.sep :: i.key ++ g.assign :: i.text

/-- The key is a name, and the text shows the value. -/
structure Written (mark : List α) (i : Item α) : Prop where
  key_ne : i.key ≠ []
  key_name : ∀ b ∈ i.key, g.isName b = true
  shown : Shown mark i.text i.value

/-- The text is the value, and nothing in it is a separator. -/
def Exact (i : Item α) : Prop := i.text = i.value ∧ g.sep ∉ i.value

omit [DecidableEq α] in
/-- Items are written one behind the other. -/
theorem write_cons (i : Item α) (items : List (Item α)) :
    write g (i :: items) = g.sep :: i.key ++ g.assign :: i.text ++ write g items := rfl

/-- What is written begins with the end of an item, or is nothing. -/
theorem write_closed {mark : List α} {items : List (Item α)}
    (h : ∀ i ∈ items, Written g mark i) : g.Closed (write g items) := by
  cases items with
  | nil => exact .nil
  | cons i items =>
      obtain ⟨hne, hname, -⟩ := h i List.mem_cons_self
      rw [write_cons]
      generalize i.key = k at hne hname
      cases k with
      | nil => exact absurd rfl hne
      | cons b k => exact .cons _ (g.isName_iff.mp (hname b List.mem_cons_self)).1

/-- Behind by separators alone. -/
theorem lag_seps {m : α} (hm : m ≠ g.sep) {tail : List α} (ht : g.Closed tail) :
    Lag g m (fun p => ∀ b ∈ p, b = g.sep) tail where
  rotate b p h c hc := by
    rcases List.mem_append.mp hc with hc | hc
    · exact h c (List.mem_cons_of_mem _ hc)
    · exact h c (List.mem_singleton.mp hc ▸ List.mem_cons_self)
  double p h c hc := by
    rcases List.mem_append.mp hc with hc | hc
    · exact h c hc
    · exact List.mem_singleton.mp hc
  lost p h := hm (h m List.mem_cons_self)
  tail p h he := by
    cases ht with
    | nil =>
        rw [g.value_sep (by simp)] at he
        simp at he
    | @cons c s hc =>
        rw [g.value_double, g.value_cons hc] at he
        have hmem : c ∈ p ++ [g.sep] := he ▸ by simp
        rcases List.mem_append.mp hmem with h' | h'
        · exact hc (h c h')
        · exact hc (List.mem_singleton.mp h')

/-- One value, read in front of more items. -/
theorem value_write_iff {m : α} {ms d v : List α} (hm : g.sep ∉ m :: ms)
    (h : Shown (m :: ms) d v) {t : List α} (ht : g.Closed t) :
    (g.value (d ++ t)).1 = v ↔ d = v ∧ g.sep ∉ v := by
  have hms : m ≠ g.sep := fun he => hm (he ▸ List.mem_cons_self)
  constructor
  · intro hv
    obtain ⟨-, h1, h2⟩ := value_exact g (lag_seps g hms ht) hm ht h
      (fun b hb => absurd hb List.not_mem_nil) (hv.trans (List.nil_append v).symm)
    exact ⟨h2, h1⟩
  · rintro ⟨rfl, hsep⟩
    rw [g.value_before hsep ht]

/-- **ITEMS READ BACK**: what was written is what is read exactly when every
    value stands there as it is, without a separator. -/
theorem parse_write_iff {m : α} {ms : List α} (hm : g.sep ∉ m :: ms) {items : List (Item α)}
    (h : ∀ i ∈ items, Written g (m :: ms) i) :
    g.parse none ((write g items).drop 1) = items.map Item.read ↔ ∀ i ∈ items, Exact g i := by
  induction items with
  | nil => exact ⟨fun _ i hi => absurd hi List.not_mem_nil, fun _ => rfl⟩
  | cons i items ih =>
      have hi := h i List.mem_cons_self
      have hrest : ∀ j ∈ items, Written g (m :: ms) j := fun j hj =>
        h j (List.mem_cons_of_mem _ hj)
      have hclosed := write_closed g hrest
      have hne : i.key ++ g.assign :: (i.text ++ write g items) ≠ [] := by simp
      have hread : g.parse none ((write g (i :: items)).drop 1)
          = (i.key, (g.value (i.text ++ write g items)).1)
            :: g.parse none ((g.value (i.text ++ write g items)).2.drop 1) := by
        have hdrop : (write g (i :: items)).drop 1
            = i.key ++ g.assign :: (i.text ++ write g items) := by
          rw [write_cons]
          simp
        rw [hdrop, g.parse_cons none hne, g.item_assign hi.key_name]
      rw [hread, List.map_cons, List.cons_eq_cons, List.forall_mem_cons]
      have hvalue := value_write_iff g hm hi.shown hclosed
      constructor
      · rintro ⟨hhead, htail⟩
        have hexact : Exact g i := hvalue.mp (congrArg Prod.snd hhead)
        have h2 : (g.value (i.text ++ write g items)).2 = write g items := by
          rw [hexact.1, g.value_before hexact.2 hclosed]
        rw [h2] at htail
        exact ⟨hexact, (ih hrest).mp htail⟩
      · rintro ⟨hexact, hall⟩
        have h2 : g.value (i.text ++ write g items) = (i.value, write g items) := by
          rw [hexact.1, g.value_before hexact.2 hclosed]
        rw [h2]
        exact ⟨rfl, (ih hrest).mpr hall⟩

/-- The same behind a first value that is a name. -/
theorem parse_first_iff {m : α} {ms : List α} (hm : g.sep ∉ m :: ms) {items : List (Item α)}
    (h : ∀ i ∈ items, Written g (m :: ms) i) (key : List α) {w : List α} (hne : w ≠ [])
    (hw : ∀ b ∈ w, g.isName b = true) :
    g.parse (some key) (w ++ write g items) = (key, w) :: items.map Item.read
      ↔ ∀ i ∈ items, Exact g i := by
  have hsep : g.sep ∉ w := fun hb => (g.isName_iff.mp (hw _ hb)).1 rfl
  have hassign : g.assign ∉ w := fun hb => (g.isName_iff.mp (hw _ hb)).2 rfl
  have hclosed := write_closed g h
  rw [g.parse_cons (some key) (by simp [hne]),
    g.item_implied key (g.dropWhile_before hsep hassign hclosed), g.value_before hsep hclosed,
    List.cons_eq_cons, ← parse_write_iff g hm h]
  exact ⟨fun h => h.2, fun h => ⟨rfl, h⟩⟩

/-- Behind by what has no mark in it, before a value that is plain. -/
theorem lag_unmarked {m : α} (hm : m ≠ g.sep) {tail : List α} (ht : g.Closed tail)
    (hplain : ∀ s, tail = g.sep :: s → g.sep ∉ (g.value s).1) :
    Lag g m (fun p => m ∉ p) tail where
  rotate b p h hmem := by
    rcases List.mem_append.mp hmem with hc | hc
    · exact h (List.mem_cons_of_mem _ hc)
    · exact h (List.mem_singleton.mp hc ▸ List.mem_cons_self)
  double p h hmem := by
    rcases List.mem_append.mp hmem with hc | hc
    · exact h hc
    · exact hm (List.mem_singleton.mp hc)
  lost p h := h List.mem_cons_self
  tail p h he := by
    cases ht with
    | nil =>
        rw [g.value_sep (by simp)] at he
        simp at he
    | @cons c s hc =>
        have hnone := hplain (c :: s) rfl
        rw [g.value_double] at he
        rw [g.value_cons hc] at he hnone
        cases p with
        | nil => simp at he
        | cons b p =>
            have hend : c :: (g.value s).1 = p ++ [g.sep] := (List.cons.inj he).2
            have hmem : g.sep ∈ c :: (g.value s).1 := by
              rw [hend]
              simp
            exact hnone hmem

/-- A text with an assignment in it, cut where the first name ends. -/
theorem name_cut {w t : List α} (ht : g.Closed t)
    (h : ((w ++ t).dropWhile g.isName).head? = some g.assign) :
    ∃ k d, w = k ++ g.assign :: d ∧ ∀ b ∈ k, g.isName b = true := by
  induction w with
  | nil =>
      exact absurd h (g.dropWhile_before List.not_mem_nil List.not_mem_nil ht)
  | cons b w ih =>
      by_cases hb : g.isName b = true
      · rw [List.cons_append, List.dropWhile_cons_of_pos hb] at h
        obtain ⟨k, d, rfl, hk⟩ := ih h
        exact ⟨b :: k, d, rfl, List.forall_mem_cons.mpr ⟨hb, hk⟩⟩
      · rw [List.cons_append, List.dropWhile_cons_of_neg hb] at h
        exact ⟨[], w, by rw [Option.some.inj h]; rfl, fun c hc => absurd hc List.not_mem_nil⟩

/-- A first value that shows anything, of an implied key and in front of items
    that are exact: it is read back exactly when it stands there as it is, and
    has neither a separator nor an assignment in it. -/
theorem parse_implied_iff {m : α} {ms : List α} (hm : g.sep ∉ m :: ms) {items : List (Item α)}
    (h : ∀ i ∈ items, Written g (m :: ms) i) (hexact : ∀ i ∈ items, Exact g i)
    (hne : items ≠ []) {key : List α} (hkey : m ∉ key) (hassign : m ≠ g.assign)
    {d v : List α} (hd : Shown (m :: ms) d v) :
    g.parse (some key) (d ++ write g items) = (key, v) :: items.map Item.read
      ↔ d = v ∧ g.sep ∉ v ∧ g.assign ∉ v := by
  have hms : m ≠ g.sep := fun he => hm (he ▸ List.mem_cons_self)
  have hclosed := write_closed g h
  have hsome : d ++ write g items ≠ [] := by
    cases items with
    | nil => exact absurd rfl hne
    | cons i items =>
        rw [write_cons]
        simp
  rw [g.parse_cons (some key) hsome, List.cons_eq_cons]
  constructor
  · rintro ⟨hhead, -⟩
    by_cases hcut : ((d ++ write g items).dropWhile g.isName).head? = some g.assign
    · -- the path is taken for an item of its own: the reader is behind by its key
      exfalso
      obtain ⟨k, d', rfl, hk⟩ := name_cut g hclosed hcut
      rw [List.append_assoc, List.cons_append, g.item_assign hk] at hhead
      obtain ⟨rfl, hv⟩ := Prod.mk.inj hhead
      have hmk : m ∉ k ++ [g.assign] := by
        intro hmem
        rcases List.mem_append.mp hmem with h' | h'
        · exact hkey h'
        · exact hassign (List.mem_singleton.mp h')
      have hd' : Shown (m :: ms) ((k ++ [g.assign]) ++ d') v := by simpa using hd
      obtain ⟨v', rfl, hshown⟩ := hd'.kept hmk
      have hplain : ∀ s, write g items = g.sep :: s → g.sep ∉ (g.value s).1 := by
        intro s hs
        cases items with
        | nil => exact absurd rfl hne
        | cons i items =>
            have hi := h i List.mem_cons_self
            have hrest := write_closed g fun j hj => h j (List.mem_cons_of_mem _ hj)
            obtain ⟨htext, hsep⟩ := hexact i List.mem_cons_self
            have hname : g.sep ∉ i.key ++ g.assign :: i.value := by
              intro hmem
              rcases List.mem_append.mp hmem with h' | h'
              · exact (g.isName_iff.mp (hi.key_name _ h')).1 rfl
              · rcases List.mem_cons.mp h' with h' | h'
                · exact g.sep_ne_assign h'
                · exact hsep h'
            have hs' : s = (i.key ++ g.assign :: i.value) ++ write g items := by
              rw [write_cons, htext] at hs
              simpa using (List.cons.inj hs).2.symm
            rw [hs', g.value_before hname hrest]
            exact hname
      obtain ⟨hnil, -⟩ := value_exact g (lag_unmarked g hms hclosed hplain) hm hclosed hshown hmk hv
      exact absurd hnil (by simp)
    · rw [g.item_implied key hcut] at hhead
      obtain ⟨rfl, hsep⟩ := (value_write_iff g hm hd hclosed).mp (congrArg Prod.snd hhead)
      refine ⟨rfl, hsep, fun hmem => hcut ?_⟩
      -- with no separator before it, an assignment ends the first name
      obtain ⟨k, s, rfl, hk⟩ := List.eq_append_cons_of_mem hmem
      have hname : ∀ b ∈ k, g.isName b = true := fun b hb => g.isName_iff.mpr
        ⟨fun he => hsep (he ▸ List.mem_append_left _ hb), fun he => hk (he ▸ hb)⟩
      rw [List.append_assoc, g.dropWhile_names hname, List.cons_append,
        List.dropWhile_cons_of_neg (by rw [g.isName_assign]; exact Bool.false_ne_true)]
      rfl
  · rintro ⟨rfl, hsep, hass⟩
    rw [g.item_implied key (g.dropWhile_before hsep hass hclosed), g.value_before hsep hclosed]
    exact ⟨rfl, (parse_write_iff g hm h).mpr hexact⟩

end TokimoOption
