/-
The lists of numbers, as iterators and as a grammar
(internals/numa_parser.rs).

# Iterators

`NumberRangeList` yields the ranges of a text one by one, and
`NumberList` their numbers, with the range it is in the middle of as
`pending`. After an error or the end of the text both are `finished`.
An iterator keeps the bytes that it has not read; `parseRange` is what
it does to them.

# The grammar

`Text bytes rs`: the bytes are whitespace, or the items of `rs` between
commas, with whitespace around everything. `Leading bytes rs`: the items
of `rs`, each with the comma behind it.

# Results

Each parser gets one lemma that says exactly when it succeeds, in terms
of the grammar. `ranges_scan` follows the iterator over a text: either
the text has the grammar and its ranges are yielded, or the iterator
yields the ranges of leading items and then an error.
-/
import Mathlib.Data.List.TakeWhile
import RsMalloc.Lib.Iter
import RsMalloc.Numa.Proofs

namespace RsMalloc.Numa

open Iter

-- ============================================================= iterators

/-- `NumberRangeIter`. -/
structure NumberRangeIter where
  next : Nat
  end_ : Nat
  finished : Bool
  deriving DecidableEq, Repr

/-- `NumberRange::iter`, as an iterator. -/
def NumberRange.toIter (r : NumberRange) : NumberRangeIter :=
  ⟨r.start, r.end_, false⟩

/-- `NumberRangeIter::next`. The addition would wrap. -/
def NumberRangeIter.advance : Next NumberRangeIter Nat := fun it =>
  if it.finished then (none, it)
  else
    let finished := decide (it.next = it.end_)
    (some it.next,
      { it with
        finished := finished
        next := if finished then it.next else (it.next + 1) % 2 ^ 64 })

/-- `ParseListError`. -/
inductive ParseListError where
  | malformed
  deriving DecidableEq, Repr

/-- `NumberRangeList`. -/
structure NumberRangeList where
  bytes : List Nat
  finished : Bool
  deriving DecidableEq, Repr

/-- `NumberRangeList::new`. -/
def NumberRangeList.new (bytes : List Nat) : NumberRangeList :=
  ⟨bytes, false⟩

/-- `NumberRangeList::next`. -/
def NumberRangeList.next :
    Next NumberRangeList (Except ParseListError NumberRange) := fun s =>
  if s.finished then (none, s)
  else
    match skipAsciiWhitespace s.bytes with
    | [] => (none, ⟨[], true⟩)
    | bytes =>
        match parseRange bytes with
        | some (range, rest) => (some (.ok range), ⟨rest, false⟩)
        | none => (some (.error .malformed), ⟨bytes, true⟩)

/-- `NumberList`. -/
structure NumberList where
  ranges : NumberRangeList
  pending : Option NumberRangeIter
  deriving DecidableEq, Repr

/-- `NumberList::new`. -/
def NumberList.new (bytes : List Nat) : NumberList :=
  ⟨.new bytes, none⟩

/-- The second half of `NumberList::next`. The range has a first number,
as the source expects. -/
def NumberList.fetch (ranges : NumberRangeList) :
    Option (Except ParseListError Nat) × NumberList :=
  match ranges.next with
  | (none, ranges) => (none, ⟨ranges, none⟩)
  | (some (.error e), ranges) => (some (.error e), ⟨ranges, none⟩)
  | (some (.ok range), ranges) =>
      let (item, it) := range.toIter.advance
      (item.map .ok, ⟨ranges, some it⟩)

/-- `NumberList::next`. -/
def NumberList.next :
    Next NumberList (Except ParseListError Nat) := fun s =>
  match s.pending with
  | none => NumberList.fetch s.ranges
  | some it =>
      match it.advance with
      | (some item, it) => (some (.ok item), ⟨s.ranges, some it⟩)
      | (none, _) => NumberList.fetch s.ranges

/-- What a loop over `parse_number_ranges` runs over. -/
def rangeItems (bytes : List Nat) :
    List (Except ParseListError NumberRange) :=
  items NumberRangeList.next (bytes.length + 2) (.new bytes)

/-- What a loop over `parse_number_list` runs over. -/
def numberItems (bytes : List Nat) : List (Except ParseListError Nat) :=
  (rangeItems bytes).flatMap fun
    | .ok range => range.iter.map .ok
    | .error e => [.error e]

-- =============================================================== grammar

/-- `ws*`. -/
def Ws (w : List Nat) : Prop := ∀ b ∈ w, isAsciiWhitespace b = true

/-- `b'0' ..= b'9'`. -/
abbrev IsDigit (b : Nat) : Prop := 48 ≤ b ∧ b ≤ 57

/-- The number that digits stand for, behind those of `n`. -/
def decimal (n : Nat) (ds : List Nat) : Nat :=
  ds.foldl (fun n d => n * 10 + (d - 48)) n

/-- `digits`, of a number that fits. -/
structure Digits (ds : List Nat) (n : Nat) : Prop where
  ne : ds ≠ []
  digit : ∀ d ∈ ds, IsDigit d
  value : decimal 0 ds = n
  fits : n < 2 ^ 64

/-- `digits (ws* '-' ws* digits)?`. -/
inductive Item : List Nat → NumberRange → Prop
  | single {ds : List Nat} {n : Nat} (h : Digits ds n) : Item ds ⟨n, n⟩
  | range {ds ds' w w' : List Nat} {n n' : Nat} (h : Digits ds n)
      (hw : Ws w) (hw' : Ws w') (h' : Digits ds' n') (hle : n ≤ n') :
      Item (ds ++ w ++ 45 :: (w' ++ ds')) ⟨n, n'⟩

/-- `item (ws* ',' ws* item)* ws*`. -/
inductive Items : List Nat → List NumberRange → Prop
  | last {i w : List Nat} {r : NumberRange} (h : Item i r) (hw : Ws w) :
      Items (i ++ w) [r]
  | more {i w w' t : List Nat} {r : NumberRange} {rs : List NumberRange}
      (h : Item i r) (hw : Ws w) (hw' : Ws w') (rest : Items t rs) :
      Items (i ++ w ++ 44 :: (w' ++ t)) (r :: rs)

/-- `ws*`, or `ws* item (ws* ',' ws* item)* ws*`. -/
inductive Text : List Nat → List NumberRange → Prop
  | blank {w : List Nat} (hw : Ws w) : Text w []
  | items {w t : List Nat} {rs : List NumberRange} (hw : Ws w)
      (h : Items t rs) : Text (w ++ t) rs

/-- `(ws* item ws* ',')* ws*`. -/
inductive Leading : List Nat → List NumberRange → Prop
  | nil {w : List Nat} (hw : Ws w) : Leading w []
  | cons {w i w' t : List Nat} {r : NumberRange} {rs : List NumberRange}
      (hw : Ws w) (h : Item i r) (hw' : Ws w') (rest : Leading t rs) :
      Leading (w ++ i ++ w' ++ 44 :: t) (r :: rs)

-- ============================================================ whitespace

section Whitespace

variable {w t bytes : List Nat} {b : Nat}

theorem skip_append (hw : Ws w) :
    skipAsciiWhitespace (w ++ t) = skipAsciiWhitespace t :=
  List.dropWhile_append_of_pos hw

theorem skip_cons (hb : isAsciiWhitespace b = false) :
    skipAsciiWhitespace (b :: t) = b :: t :=
  List.dropWhile_cons_of_neg (by rw [hb]; exact Bool.false_ne_true)

theorem skip_ws (hw : Ws w) : skipAsciiWhitespace w = [] :=
  List.dropWhile_eq_nil_iff.2 hw

/-- What is skipped is whitespace. -/
theorem skip_split (bytes : List Nat) :
    ∃ w, Ws w ∧ bytes = w ++ skipAsciiWhitespace bytes :=
  ⟨bytes.takeWhile isAsciiWhitespace, fun _ hb => List.mem_takeWhile_imp hb,
    List.takeWhile_append_dropWhile.symm⟩

/-- What is left does not start with whitespace. -/
theorem skip_head (h : skipAsciiWhitespace bytes = b :: t) :
    isAsciiWhitespace b = false := by
  have hne : bytes.dropWhile isAsciiWhitespace ≠ [] := by
    rw [show bytes.dropWhile isAsciiWhitespace = b :: t from h]
    exact List.cons_ne_nil _ _
  have hhead := List.head_dropWhile_not isAsciiWhitespace hne
  simp only [show bytes.dropWhile isAsciiWhitespace = b :: t from h,
    List.head_cons] at hhead
  exact hhead

theorem ws_of_skip (h : skipAsciiWhitespace bytes = []) : Ws bytes :=
  List.dropWhile_eq_nil_iff.1 h

theorem not_ws_of_digit (h : IsDigit b) : isAsciiWhitespace b = false := by
  obtain ⟨h₁, h₂⟩ := h
  simp only [isAsciiWhitespace, Bool.or_eq_false_iff, decide_eq_false_iff_not]
  omega

theorem not_digit_of_ws (h : isAsciiWhitespace b = true) : ¬ IsDigit b := by
  intro hd
  rw [not_ws_of_digit hd] at h
  cases h

end Whitespace

-- ================================================================ digits

section Digits

variable {n : Nat} {ds rest bytes : List Nat}

theorem le_decimal (n : Nat) (ds : List Nat) : n ≤ decimal n ds := by
  induction ds generalizing n with
  | nil => exact le_refl n
  | cons d ds ih => exact (by omega : n ≤ n * 10 + (d - 48)).trans (ih _)

/-- No byte of the rest belongs to the number. -/
def Stops (rest : List Nat) : Prop := ∀ b ∈ rest.head?, ¬ IsDigit b

/-- The loop of `parse_usize` on all the digits there are. -/
theorem parseDigits_append (hn : n < 2 ^ 64) (hd : ∀ d ∈ ds, IsDigit d)
    (hrest : Stops rest) :
    parseDigits n (ds ++ rest)
      = if decimal n ds < 2 ^ 64 then some (decimal n ds, rest) else none := by
  induction ds generalizing n with
  | nil =>
      rw [List.nil_append, show decimal n [] = n from rfl, if_pos hn]
      cases rest with
      | nil => rfl
      | cons b rest =>
          rw [parseDigits, if_neg (hrest b rfl)]
  | cons d ds ih =>
      have hmul := le_decimal (n * 10 + (d - 48)) ds
      rw [List.cons_append, parseDigits,
        if_pos (hd d (List.mem_cons_self ..)),
        show decimal n (d :: ds) = decimal (n * 10 + (d - 48)) ds from rfl]
      by_cases hfit : n * 10 + (d - 48) < 2 ^ 64
      · rw [checkedMul, if_pos (by omega), Option.bind_eq_bind,
          Option.bind_some, checkedAdd, if_pos hfit, Option.bind_some,
          ih hfit fun d' hd' => hd d' (List.mem_cons_of_mem _ hd')]
      · rw [if_neg (by omega), checkedMul]
        split
        · rw [Option.bind_eq_bind, Option.bind_some, checkedAdd,
            if_neg hfit, Option.bind_none]
        · rfl

/-- Every text starts with all its leading digits. -/
theorem digits_split (bytes : List Nat) :
    ∃ ds rest, (∀ d ∈ ds, IsDigit d) ∧ Stops rest ∧ bytes = ds ++ rest := by
  induction bytes with
  | nil => exact ⟨[], [], nofun, nofun, rfl⟩
  | cons b bytes ih =>
      by_cases hb : IsDigit b
      · obtain ⟨ds, rest, hd, hs, rfl⟩ := ih
        exact ⟨b :: ds, rest, List.forall_mem_cons.2 ⟨hb, hd⟩, hs, rfl⟩
      · refine ⟨[], b :: bytes, nofun, fun c hc => ?_, rfl⟩
        cases hc
        exact hb

theorem parseUsize_append (hd : ∀ d ∈ ds, IsDigit d) (hrest : Stops rest) :
    parseUsize (ds ++ rest)
      = if ds ≠ [] ∧ decimal 0 ds < 2 ^ 64 then some (decimal 0 ds, rest)
        else none := by
  cases ds with
  | nil =>
      rw [if_neg fun h => h.1 rfl, List.nil_append]
      cases rest with
      | nil => rfl
      | cons b rest => exact if_neg (hrest b rfl)
  | cons d ds =>
      have hnum := parseDigits_append (n := 0) (by decide) hd hrest
      rw [List.cons_append] at hnum ⊢
      rw [parseUsize, if_pos (show 48 ≤ d ∧ d ≤ 57 from
        hd d (List.mem_cons_self ..)), hnum]
      simp

/-- `parse_usize` takes all the digits there are, and the number has to
fit. -/
theorem parseUsize_iff :
    parseUsize bytes = some (n, rest)
      ↔ ∃ ds, Digits ds n ∧ Stops rest ∧ bytes = ds ++ rest := by
  constructor
  · intro h
    obtain ⟨ds, rest', hd, hs, rfl⟩ := digits_split bytes
    rw [parseUsize_append hd hs] at h
    split at h
    · next hok =>
      cases h
      exact ⟨ds, ⟨hok.1, hd, rfl, hok.2⟩, hs, rfl⟩
    · cases h
  · rintro ⟨ds, ⟨hne, hd, rfl, hfits⟩, hs, rfl⟩
    rw [parseUsize_append hd hs, if_pos ⟨hne, hfits⟩]

/-- Digits start with one. -/
theorem Digits.head (h : Digits ds n) : ∃ d t, ds = d :: t ∧ IsDigit d := by
  cases ds with
  | nil => exact absurd rfl h.ne
  | cons d t => exact ⟨d, t, rfl, h.digit d (List.mem_cons_self ..)⟩

theorem Digits.skip (h : Digits ds n) :
    skipAsciiWhitespace (ds ++ rest) = ds ++ rest := by
  obtain ⟨d, t, rfl, hd⟩ := h.head
  exact skip_cons (not_ws_of_digit hd)

end Digits

-- ================================================================= items

section Items

variable {i w t rest bytes : List Nat} {r : NumberRange}
  {rs : List NumberRange}

/-- What may follow an item: nothing, or a comma and something else. -/
inductive Tail : List Nat → List Nat → Prop
  | nil : Tail [] []
  | comma {w t : List Nat} {b : Nat} (hw : Ws w)
      (hb : isAsciiWhitespace b = false) :
      Tail (44 :: (w ++ b :: t)) (b :: t)

/-- A tail starts with a comma if with anything. -/
theorem Tail.head (h : Tail t rest) : t = [] ∨ ∃ t', t = 44 :: t' := by
  cases h with
  | nil => exact Or.inl rfl
  | comma => exact Or.inr ⟨_, rfl⟩

theorem Tail.skip (h : Tail t rest) (hw : Ws w) :
    skipAsciiWhitespace (w ++ t) = t := by
  rw [skip_append hw]
  rcases h.head with rfl | ⟨t', rfl⟩
  · rfl
  · exact skip_cons (by decide)

theorem parseSeparator_iff (h : skipAsciiWhitespace bytes = t) :
    parseSeparator t = some rest ↔ Tail t rest := by
  constructor
  · intro hsep
    cases t with
    | nil =>
        cases hsep
        exact .nil
    | cons b t =>
        rw [parseSeparator] at hsep
        split at hsep
        · next hok =>
          obtain ⟨rfl, hne⟩ := hok
          cases hsep
          obtain ⟨w, hw, hsplit⟩ := skip_split t
          cases ht : skipAsciiWhitespace t with
          | nil => exact absurd ht hne
          | cons c u =>
              rw [ht] at hsplit
              rw [hsplit]
              exact .comma hw (skip_head ht)
        · cases hsep
  · intro htail
    cases htail with
    | nil => rfl
    | comma hw hb =>
        rw [parseSeparator, skip_append hw, skip_cons hb,
          if_pos ⟨rfl, List.cons_ne_nil _ _⟩]

/-- Digits end where whitespace, a dash or a tail begins. -/
theorem stops_append (hw : Ws w) (ht : Stops t) : Stops (w ++ t) := by
  cases w with
  | nil => exact ht
  | cons b w =>
      intro c hc
      cases hc
      exact not_digit_of_ws (hw b (List.mem_cons_self ..))

theorem Tail.stops (h : Tail t rest) : Stops t := by
  rcases h.head with rfl | ⟨t', rfl⟩
  · exact nofun
  · intro c hc
    cases hc
    decide

theorem parseEnd_of_ne {start : Nat} (h : ∀ t', t ≠ 45 :: t') :
    parseEnd start t = some (start, t) := by
  unfold parseEnd
  split
  · next t' => exact absurd rfl (h t')
  · rfl

theorem Tail.ne_dash (h : Tail t rest) (t' : List Nat) : t ≠ 45 :: t' := by
  rcases h.head with rfl | ⟨u, rfl⟩
  · intro heq
    cases heq
  · intro heq
    cases heq

/-- `parse_range` reads an item and what follows it. -/
theorem parseRange_item (h : Item i r) (hw : Ws w) (ht : Tail t rest) :
    parseRange (i ++ w ++ t) = some (r, rest) := by
  have hsep := (parseSeparator_iff (ht.skip hw)).2 ht
  cases h with
  | single hd =>
      have hnum := parseUsize_iff.2 ⟨i, hd, stops_append hw ht.stops, rfl⟩
      have hself : skipAsciiWhitespace t = t := ht.skip (w := []) nofun
      rw [List.append_assoc, parseRange, hnum]
      simp only [Option.bind_eq_bind, Option.bind_some]
      rw [ht.skip hw, parseEnd_of_ne ht.ne_dash]
      simp only [Option.bind_some]
      rw [hself, hsep]
      simp
  | range hd hw₁ hw₂ hd' hle =>
      rename_i ds ds' w₁ w₂ n n'
      have hdash : Stops (45 :: (w₂ ++ (ds' ++ (w ++ t)))) := by
        intro c hc
        cases hc
        decide
      have hnum : parseUsize (ds ++ (w₁ ++ 45 :: (w₂ ++ (ds' ++ (w ++ t)))))
          = some (n, w₁ ++ 45 :: (w₂ ++ (ds' ++ (w ++ t)))) :=
        parseUsize_iff.2 ⟨ds, hd, stops_append hw₁ hdash, rfl⟩
      have hnum' : parseUsize (ds' ++ (w ++ t)) = some (n', w ++ t) :=
        parseUsize_iff.2 ⟨ds', hd', stops_append hw ht.stops, rfl⟩
      have hbytes : ds ++ w₁ ++ 45 :: (w₂ ++ ds') ++ w ++ t
          = ds ++ (w₁ ++ 45 :: (w₂ ++ (ds' ++ (w ++ t)))) := by simp
      rw [hbytes, parseRange, hnum]
      simp only [Option.bind_eq_bind, Option.bind_some]
      rw [skip_append hw₁, skip_cons (by decide), parseEnd, skip_append hw₂,
        hd'.skip, hnum']
      simp only [Option.bind_some]
      rw [ht.skip hw, hsep]
      simp [hle]

/-- It reads nothing else. -/
theorem item_of_parseRange (h : parseRange bytes = some (r, rest)) :
    ∃ i w t, Item i r ∧ Ws w ∧ Tail t rest ∧ bytes = i ++ w ++ t := by
  obtain ⟨b₁, b₂, hu, he, hs, hle⟩ := parseRange_eq_some h
  obtain ⟨ds, hd, -, rfl⟩ := parseUsize_iff.1 hu
  have htail := (parseSeparator_iff rfl).1 hs
  obtain ⟨w₁, hw₁, hb₁⟩ := skip_split b₁
  obtain ⟨w₂, hw₂, hb₂⟩ := skip_split b₂
  by_cases hdash : ∃ u, skipAsciiWhitespace b₁ = 45 :: u
  · -- a dash, and the end of the range behind it
    obtain ⟨u, hu'⟩ := hdash
    rw [hu', parseEnd] at he
    obtain ⟨ds', hd', -, hnum⟩ := parseUsize_iff.1 he
    obtain ⟨w₃, hw₃, hu₃⟩ := skip_split u
    refine ⟨_, w₂, _, .range hd hw₁ hw₃ hd' hle, hw₂, htail, ?_⟩
    rw [hb₁, hu', hu₃, hnum]
    simp only [List.append_assoc, List.cons_append]
    rw [← hb₂]
  · -- a single number
    rw [parseEnd_of_ne fun u hu' => hdash ⟨u, hu'⟩] at he
    obtain ⟨start, end_⟩ := r
    cases he
    refine ⟨ds, w₁ ++ w₂, _, .single hd, ?_, htail, ?_⟩
    · exact List.forall_mem_append.2 ⟨hw₁, hw₂⟩
    · rw [List.append_assoc, List.append_assoc, ← hb₂, ← hb₁]

/-- An item starts with a digit. -/
theorem Item.head (h : Item i r) : ∃ d t, i = d :: t ∧ IsDigit d := by
  cases h with
  | single hd => exact hd.head
  | range hd =>
      obtain ⟨d, t, rfl, hdigit⟩ := hd.head
      exact ⟨d, _, rfl, hdigit⟩

theorem Items.head (h : Items t rs) : ∃ d u, t = d :: u ∧ IsDigit d := by
  cases h with
  | last hi =>
      obtain ⟨d, u, rfl, hd⟩ := hi.head
      exact ⟨d, _, rfl, hd⟩
  | more hi =>
      obtain ⟨d, u, rfl, hd⟩ := hi.head
      exact ⟨d, _, rfl, hd⟩

/-- A range of `usize` numbers that is not empty. -/
def Proper (r : NumberRange) : Prop := r.start ≤ r.end_ ∧ r.end_ < 2 ^ 64

theorem Item.proper (h : Item i r) : Proper r := by
  cases h with
  | single hd => exact ⟨le_refl _, hd.fits⟩
  | range hd hw hw' hd' hle => exact ⟨hle, hd'.fits⟩

theorem Items.proper (h : Items t rs) : ∀ r ∈ rs, Proper r := by
  induction h with
  | last hi => exact List.forall_mem_singleton.2 hi.proper
  | more hi _ _ _ ih => exact List.forall_mem_cons.2 ⟨hi.proper, ih⟩

theorem Text.proper (h : Text bytes rs) : ∀ r ∈ rs, Proper r := by
  cases h with
  | blank => exact nofun
  | items _ hitems => exact hitems.proper

theorem Leading.proper (h : Leading bytes rs) : ∀ r ∈ rs, Proper r := by
  induction h with
  | nil => exact nofun
  | cons _ hi _ _ ih => exact List.forall_mem_cons.2 ⟨hi.proper, ih⟩

theorem Leading.ws_append (h : Leading t rs) (hw : Ws w) :
    Leading (w ++ t) rs := by
  cases h with
  | nil hw' => exact .nil (List.forall_mem_append.2 ⟨hw, hw'⟩)
  | cons hw' hi hw'' rest =>
      rw [List.append_assoc, List.append_assoc, ← List.append_assoc w,
        ← List.append_assoc, ← List.append_assoc]
      exact .cons (List.forall_mem_append.2 ⟨hw, hw'⟩) hi hw'' rest

end Items

-- ================================================= what the ranges yield

section Ranges

variable {bytes rest t w : List Nat} {r : NumberRange}
  {rs : List NumberRange}

theorem next_blank (h : skipAsciiWhitespace bytes = []) :
    NumberRangeList.next ⟨bytes, false⟩ = (none, ⟨[], true⟩) := by
  rw [NumberRangeList.next, if_neg Bool.false_ne_true, h]

theorem next_ok {b : Nat} (h : skipAsciiWhitespace bytes = b :: t)
    (hr : parseRange (b :: t) = some (r, rest)) :
    NumberRangeList.next ⟨bytes, false⟩
      = (some (.ok r), ⟨rest, false⟩) := by
  rw [NumberRangeList.next, if_neg Bool.false_ne_true, h]
  simp only [hr]

theorem next_error {b : Nat} (h : skipAsciiWhitespace bytes = b :: t)
    (hr : parseRange (b :: t) = none) :
    NumberRangeList.next ⟨bytes, false⟩
      = (some (.error .malformed), ⟨b :: t, true⟩) := by
  rw [NumberRangeList.next, if_neg Bool.false_ne_true, h]
  simp only [hr]

/-- Nothing comes after the end. -/
theorem finished_yields (bytes : List Nat) :
    Yields NumberRangeList.next ⟨bytes, true⟩ [] := by
  refine Yields.nil (P := fun s => s.finished = true) rfl fun s hs => ?_
  rw [NumberRangeList.next, if_pos hs]
  exact ⟨rfl, hs⟩

theorem blank_yields (h : skipAsciiWhitespace bytes = []) :
    Yields NumberRangeList.next ⟨bytes, false⟩ [] := by
  intro n
  cases n with
  | zero => rw [nth, next_blank h, List.getElem?_nil]
  | succ n =>
      rw [nth, next_blank h, List.getElem?_nil]
      exact finished_yields [] n

/-- Items are yielded in order. -/
theorem items_yield (h : Items t rs) (hw : Ws w) :
    Yields NumberRangeList.next ⟨w ++ t, false⟩ (rs.map .ok) := by
  induction h generalizing w with
  | last hi hw' =>
      rename_i i w' r
      obtain ⟨d, u, rfl, hd⟩ := hi.head
      have hskip : skipAsciiWhitespace (w ++ (d :: u ++ w'))
          = d :: (u ++ w') := by
        rw [skip_append hw]
        exact skip_cons (not_ws_of_digit hd)
      have hr := parseRange_item hi hw' .nil
      rw [List.append_nil] at hr
      exact .cons (next_ok hskip hr) (blank_yields rfl)
  | more hi hw₁ hw₂ rest ih =>
      rename_i i w₁ w₂ t r rs
      obtain ⟨d, u, rfl, hd⟩ := hi.head
      obtain ⟨d', u', rfl, hd'⟩ := rest.head
      have hskip : skipAsciiWhitespace
          (w ++ (d :: u ++ w₁ ++ 44 :: (w₂ ++ d' :: u')))
            = d :: (u ++ w₁ ++ 44 :: (w₂ ++ d' :: u')) := by
        rw [skip_append hw]
        exact skip_cons (not_ws_of_digit hd)
      have hr := parseRange_item hi hw₁
        (.comma (t := u') hw₂ (not_ws_of_digit hd'))
      exact .cons (next_ok hskip hr) (ih (w := []) nofun)

theorem text_yields (h : Text bytes rs) :
    Yields NumberRangeList.next (.new bytes) (rs.map .ok) := by
  cases h with
  | blank hw => exact blank_yields (skip_ws hw)
  | items hw hitems => exact items_yield hitems hw

/-- More items behind an item and a comma. -/
theorem Text.cons {i w w₁ w₂ : List Nat} {b : Nat} (hi : Item i r)
    (hw : Ws w) (hw₁ : Ws w₁) (hw₂ : Ws w₂)
    (hb : isAsciiWhitespace b = false) (h : Text (b :: t) rs) :
    Text (w ++ (i ++ w₁ ++ 44 :: (w₂ ++ b :: t))) (r :: rs) := by
  generalize hbytes : b :: t = bytes at h
  cases h with
  | blank hblank =>
      rw [← hbytes] at hblank
      rw [hblank b (List.mem_cons_self ..)] at hb
      cases hb
  | items hw₃ hitems =>
      rw [← List.append_assoc w₂]
      exact .items hw (.more hi hw₁ (List.forall_mem_append.2 ⟨hw₂, hw₃⟩)
        hitems)

/-- The iterator over a text: it has the grammar and its ranges are
yielded, or the ranges of leading items and an error are. -/
theorem ranges_scan (bytes : List Nat) :
    (∃ rs, Text bytes rs)
      ∨ ∃ pre rest rs, bytes = pre ++ rest ∧ Leading pre rs
        ∧ Yields NumberRangeList.next (.new bytes)
          (rs.map .ok ++ [.error .malformed]) := by
  -- a range takes a byte
  induction hn : bytes.length using Nat.strong_induction_on
    generalizing bytes with
  | _ n ih =>
      obtain ⟨w, hw, hsplit⟩ := skip_split bytes
      cases hskip : skipAsciiWhitespace bytes with
      | nil => exact Or.inl ⟨[], .blank (ws_of_skip hskip)⟩
      | cons b t =>
          rw [hskip] at hsplit
          cases hr : parseRange (b :: t) with
          | none =>
              refine Or.inr ⟨[], bytes, [], rfl, .nil nofun, ?_⟩
              exact .cons (next_error hskip hr) (finished_yields _)
          | some x =>
              obtain ⟨r, rest⟩ := x
              obtain ⟨i, w₁, t', hi, hw₁, htail, hbt⟩ := item_of_parseRange hr
              rw [hbt] at hsplit
              cases htail with
              | nil =>
                  refine Or.inl ⟨[r], ?_⟩
                  rw [hsplit, List.append_nil]
                  exact .items hw (.last hi hw₁)
              | comma hw₂ hb' =>
                  rename_i w₂ t'' b'
                  have hlt := parseRange_lt hr
                  have hle := skip_le bytes
                  rw [hskip] at hle
                  rcases ih _ (by omega) (b' :: t'') rfl with
                    ⟨rs, hrs⟩ | ⟨pre, rest', rs, hpre, hlead, hy⟩
                  · refine Or.inl ⟨r :: rs, ?_⟩
                    rw [hsplit]
                    exact .cons hi hw hw₁ hw₂ hb' hrs
                  · refine Or.inr ⟨w ++ i ++ w₁ ++ 44 :: (w₂ ++ pre), rest',
                      r :: rs, ?_, .cons hw hi hw₁ (hlead.ws_append hw₂), ?_⟩
                    · rw [hsplit, hpre]
                      simp
                    · exact .cons (next_ok hskip hr) hy

/-- `parse_number_ranges` as a whole, when there is an error and when
there is none. -/
theorem numberRanges_yields {fuel : Nat} (hfuel : bytes.length ≤ fuel) :
    match numberRanges fuel bytes with
    | some rs => rs.length ≤ fuel
        ∧ Yields NumberRangeList.next ⟨bytes, false⟩ (rs.map .ok)
    | none => ∃ rs : List NumberRange, rs.length ≤ fuel
        ∧ Yields NumberRangeList.next ⟨bytes, false⟩
          (rs.map .ok ++ [.error .malformed]) := by
  induction fuel generalizing bytes with
  | zero =>
      obtain rfl := List.eq_nil_of_length_eq_zero (Nat.le_zero.1 hfuel)
      exact ⟨le_refl _, blank_yields rfl⟩
  | succ n ih =>
      have hle := skip_le bytes
      cases hskip : skipAsciiWhitespace bytes with
      | nil =>
          rw [numberRanges, hskip]
          exact ⟨Nat.zero_le _, blank_yields hskip⟩
      | cons b t =>
          rw [hskip] at hle
          rw [numberRanges, hskip]
          simp only
          cases hr : parseRange (b :: t) with
          | none =>
              exact ⟨[], Nat.zero_le _,
                .cons (next_error hskip hr) (finished_yields _)⟩
          | some x =>
              obtain ⟨r, rest⟩ := x
              have hlt := parseRange_lt hr
              have hnext := next_ok hskip hr
              have hshort : rest.length ≤ n := by omega
              have hrest := ih hshort
              cases hn : numberRanges n rest with
              | none =>
                  rw [hn] at hrest
                  obtain ⟨rs, hlen, hy⟩ := hrest
                  simp only [Option.bind_eq_bind, Option.bind_some, hn,
                    Option.bind_none]
                  exact ⟨r :: rs, Nat.succ_le_succ hlen, .cons hnext hy⟩
              | some rs =>
                  rw [hn] at hrest
                  simp only [Option.bind_eq_bind, Option.bind_some, hn]
                  exact ⟨Nat.succ_le_succ hrest.1, .cons hnext hrest.2⟩

/-- A loop over the ranges has enough calls. -/
theorem rangeItems_yield (bytes : List Nat) :
    Yields NumberRangeList.next (.new bytes) (rangeItems bytes) := by
  have h := numberRanges_yields (le_refl bytes.length)
  cases hn : numberRanges bytes.length bytes with
  | none =>
      rw [hn] at h
      obtain ⟨rs, hlen, hy⟩ := h
      have hitems := hy.items_eq (n := bytes.length + 2) (by simp; omega)
      rwa [← hitems] at hy
  | some rs =>
      rw [hn] at h
      obtain ⟨hlen, hy⟩ := h
      have hitems := hy.items_eq (n := bytes.length + 2) (by simp; omega)
      rwa [← hitems] at hy

/-- It runs over the ranges of the text, or over leading ranges and an
error. -/
theorem rangeItems_cases (bytes : List Nat) :
    (∃ rs, Text bytes rs ∧ rangeItems bytes = rs.map .ok)
      ∨ ∃ rs : List NumberRange, (∀ r ∈ rs, Proper r)
        ∧ rangeItems bytes = rs.map .ok ++ [.error .malformed] := by
  have h := rangeItems_yield bytes
  rcases ranges_scan bytes with ⟨rs, htext⟩ | ⟨pre, rest, rs, _, hlead, hy⟩
  · exact Or.inl ⟨rs, htext, h.unique (text_yields htext)⟩
  · exact Or.inr ⟨rs, hlead.proper, h.unique hy⟩

theorem ok_ne_error (rs rs' : List NumberRange) :
    rs.map Except.ok ≠ rs'.map .ok ++ [.error ParseListError.malformed] := by
  intro heq
  have hmem : Except.error ParseListError.malformed
      ∈ rs.map (Except.ok (ε := ParseListError)) := by
    rw [heq]
    exact List.mem_append_right _ (List.mem_singleton_self _)
  obtain ⟨r, _, hr⟩ := List.mem_map.1 hmem
  cases hr

/-- The text is parsed as a whole if it has the grammar. -/
theorem parseNumberRanges_iff :
    parseNumberRanges bytes = some rs ↔ Text bytes rs := by
  have h := numberRanges_yields (le_refl bytes.length)
  constructor
  · intro hparse
    rw [parseNumberRanges] at hparse
    rw [hparse] at h
    rcases ranges_scan bytes with ⟨rs', htext⟩ | ⟨pre, rest, rs', _, _, hy⟩
    · have heq := h.2.unique (text_yields htext)
      rw [List.map_inj_right fun _ _ h => Except.ok.inj h] at heq
      rwa [heq]
    · exact absurd (h.2.unique hy) (ok_ne_error _ _)
  · intro htext
    rw [parseNumberRanges]
    cases hn : numberRanges bytes.length bytes with
    | none =>
        rw [hn] at h
        obtain ⟨rs', _, hy⟩ := h
        exact absurd ((text_yields htext).unique hy) (ok_ne_error _ _)
    | some rs' =>
        rw [hn] at h
        have heq := h.2.unique (text_yields htext)
        rw [List.map_inj_right fun _ _ h => Except.ok.inj h] at heq
        rw [heq]

end Ranges

-- ================================================ what the numbers yield

section Numbers

variable {s : NumberRangeList} {it : NumberRangeIter}
  {l : List Nat} {out : List (Except ParseListError Nat)}

/-- A range is yielded number by number, up to `usize::MAX`. -/
theorem iter_yields {a e : Nat} (hle : a ≤ e) (hfits : e < 2 ^ 64) :
    Yields NumberRangeIter.advance ⟨a, e, false⟩
      (List.range' a (e + 1 - a)) := by
  induction hn : e - a generalizing a with
  | zero =>
      obtain rfl : a = e := by omega
      rw [show a + 1 - a = 1 by omega]
      refine .cons (t := ⟨a, a, true⟩) ?_ ?_
      · simp [NumberRangeIter.advance]
      · refine Yields.nil (P := fun it => it.finished = true) rfl
          fun it hit => ?_
        rw [NumberRangeIter.advance, if_pos hit]
        exact ⟨rfl, hit⟩
  | succ n ih =>
      rw [show e + 1 - a = e + 1 - (a + 1) + 1 by omega, List.range'_succ]
      refine .cons (t := ⟨a + 1, e, false⟩) ?_ (ih (by omega) (by omega))
      have hne : a ≠ e := by omega
      simp [NumberRangeIter.advance, hne]
      omega

/-- The pending range comes first. -/
theorem pending_yields (h : Yields NumberRangeIter.advance it l)
    (hs : Yields NumberList.next ⟨s, none⟩ out) :
    Yields NumberList.next ⟨s, some it⟩ (l.map .ok ++ out) := by
  induction l generalizing it with
  | nil =>
      refine Yields.congr (t := ⟨s, none⟩) ?_ hs
      have hnone := h.none
      rw [NumberList.next, NumberList.next]
      dsimp only
      split
      · next hsome =>
        rw [hsome] at hnone
        cases hnone
      · rfl
  | cons a l ih =>
      obtain ⟨hhead, hrest⟩ := h.head
      refine .cons (t := ⟨s, some (it.advance).2⟩) ?_ (ih hrest)
      rw [NumberList.next]
      dsimp only
      split
      · next hsome =>
        rw [hsome] at hhead ⊢
        cases hhead
        rfl
      · next hnone =>
        rw [hnone] at hhead
        cases hhead

/-- The end of the ranges is the end of the numbers. -/
theorem end_yields (h : Yields NumberRangeList.next s []) :
    Yields NumberList.next ⟨s, none⟩ [] := by
  refine Yields.nil (P := fun t => t.pending = none
    ∧ Yields NumberRangeList.next t.ranges []) ⟨rfl, h⟩ fun t ht => ?_
  obtain ⟨ranges, pending⟩ := t
  obtain ⟨rfl, hy⟩ := ht
  have hnone := hy.none
  have hrest := fun n => hy (n + 1)
  cases hnext : ranges.next with
  | mk item ranges' =>
      rw [hnext] at hnone
      cases hnone
      rw [NumberList.next]
      simp only [NumberList.fetch, hnext, true_and]
      intro n
      have hn := hrest n
      rw [nth, hnext] at hn
      exact hn

/-- An error of the ranges is passed on. -/
theorem fetch_error {e : ParseListError}
    (h : (NumberRangeList.next s).1 = some (.error e)) :
    NumberList.next ⟨s, none⟩
      = (some (.error e), ⟨(NumberRangeList.next s).2, none⟩) := by
  cases hnext : s.next with
  | mk item s' =>
      rw [hnext] at h
      cases h
      rw [NumberList.next]
      simp only [NumberList.fetch, hnext]

/-- A range becomes the pending one, without its first number. -/
theorem fetch_ok {r : NumberRange}
    (h : (NumberRangeList.next s).1 = some (.ok r)) :
    NumberList.next ⟨s, none⟩
      = (r.toIter.advance.1.map .ok,
        ⟨(NumberRangeList.next s).2, some r.toIter.advance.2⟩) := by
  cases hnext : s.next with
  | mk item s' =>
      rw [hnext] at h
      cases h
      rw [NumberList.next]
      simp only [NumberList.fetch, hnext]

/-- The numbers of ranges that are yielded are yielded; errors are
passed on. -/
theorem numbers_yield {rs : List NumberRange} {e : List ParseListError}
    (hrs : ∀ r ∈ rs, Proper r)
    (h : Yields NumberRangeList.next s (rs.map .ok ++ e.map .error)) :
    Yields NumberList.next ⟨s, none⟩
      ((rs.flatMap NumberRange.iter).map .ok ++ e.map .error) := by
  induction rs generalizing s with
  | nil =>
      induction e generalizing s with
      | nil => exact end_yields h
      | cons e₀ e ih =>
          obtain ⟨herror, hrest⟩ := h.head
          exact .cons (fetch_error herror) (ih hrest)
  | cons r rs ih =>
      obtain ⟨hr, hrest⟩ := h.head
      obtain ⟨hle, hfits⟩ := hrs r (List.mem_cons_self ..)
      have hrange : Yields NumberRangeIter.advance r.toIter r.iter :=
        iter_yields hle hfits
      have hiter : r.iter
          = r.start :: List.range' (r.start + 1) (r.end_ - r.start) := by
        rw [NumberRange.iter,
          show r.end_ + 1 - r.start = r.end_ - r.start + 1 by omega,
          List.range'_succ]
      rw [hiter] at hrange
      obtain ⟨hfirst, htail⟩ := hrange.head
      have hnext := fetch_ok hr
      rw [hfirst] at hnext
      have hnumbers := ih (fun r' hr' => hrs r' (List.mem_cons_of_mem _ hr'))
        hrest
      rw [List.flatMap_cons, hiter, List.map_append, List.append_assoc]
      exact .cons hnext (pending_yields htail hnumbers)

/-- The numbers of ranges without an error. -/
theorem numbers_ok (rs : List NumberRange) :
    (rs.map Except.ok).flatMap (fun
      | .ok range => range.iter.map Except.ok
      | .error e => [.error e])
    = (rs.flatMap NumberRange.iter).map (Except.ok (ε := ParseListError)) := by
  rw [List.flatMap_map, List.map_flatMap]

/-- A loop over the numbers runs over those of the text, or over some and
an error. -/
theorem numberItems_cases (bytes : List Nat) :
    (∃ rs, Text bytes rs
        ∧ numberItems bytes = (rs.flatMap NumberRange.iter).map .ok)
      ∨ ∃ xs : List Nat,
        numberItems bytes = xs.map .ok ++ [.error .malformed] := by
  rw [numberItems]
  rcases rangeItems_cases bytes with ⟨rs, htext, heq⟩ | ⟨rs, _, heq⟩
  · rw [heq, numbers_ok]
    exact Or.inl ⟨rs, htext, rfl⟩
  · rw [heq, List.flatMap_append, numbers_ok]
    exact Or.inr ⟨_, rfl⟩

/-- The loop is over what the iterator yields. -/
theorem numberItems_yield (bytes : List Nat) :
    Yields NumberList.next (.new bytes) (numberItems bytes) := by
  have h := rangeItems_yield bytes
  rw [numberItems]
  rcases rangeItems_cases bytes with ⟨rs, htext, heq⟩ | ⟨rs, hrs, heq⟩
  · rw [heq] at h ⊢
    rw [numbers_ok]
    have hnumbers := numbers_yield (e := []) htext.proper
      (by rwa [List.map_nil, List.append_nil])
    rwa [List.map_nil, List.append_nil] at hnumbers
  · rw [heq] at h ⊢
    rw [List.flatMap_append, numbers_ok]
    exact numbers_yield (e := [.malformed]) hrs h

end Numbers

-- ================================================================ result

/-- The list parser accepts its grammar. Collecting the numbers succeeds
exactly on a text of the grammar, with the numbers of its items in
order. On such a text the ranges are those of the items. On any other
text both iterators yield what leading items stand for, one error, and
nothing after it. -/
theorem number_list_accepts_grammar (bytes : List Nat) :
    (∀ xs, Collects NumberList.next (.new bytes) (.ok xs)
      ↔ ∃ rs, Text bytes rs ∧ xs = rs.flatMap NumberRange.iter)
    ∧ (∀ rs, Text bytes rs →
        Yields NumberRangeList.next (.new bytes) (rs.map .ok)
        ∧ Yields NumberList.next (.new bytes)
          ((rs.flatMap NumberRange.iter).map .ok))
    ∧ ((¬ ∃ rs, Text bytes rs) →
        ∃ pre rest rs, bytes = pre ++ rest ∧ Leading pre rs
          ∧ Yields NumberRangeList.next (.new bytes)
            (rs.map .ok ++ [.error .malformed])
          ∧ Yields NumberList.next (.new bytes)
            ((rs.flatMap NumberRange.iter).map .ok
              ++ [.error .malformed])) := by
  have hgood : ∀ rs, Text bytes rs →
      Yields NumberRangeList.next (.new bytes) (rs.map .ok)
      ∧ Yields NumberList.next (.new bytes)
        ((rs.flatMap NumberRange.iter).map .ok) := by
    intro rs htext
    have hranges := text_yields htext
    refine ⟨hranges, ?_⟩
    have hnumbers := numbers_yield (e := []) htext.proper
      (by rwa [List.map_nil, List.append_nil])
    rwa [List.map_nil, List.append_nil] at hnumbers
  have hbad : (¬ ∃ rs, Text bytes rs) →
      ∃ pre rest rs, bytes = pre ++ rest ∧ Leading pre rs
        ∧ Yields NumberRangeList.next (.new bytes)
          (rs.map .ok ++ [.error .malformed])
        ∧ Yields NumberList.next (.new bytes)
          ((rs.flatMap NumberRange.iter).map .ok
            ++ [.error .malformed]) := by
    intro hno
    cases ranges_scan bytes with
    | inl htext => exact absurd htext hno
    | inr hscan =>
        obtain ⟨pre, rest, rs, hbytes, hlead, hranges⟩ := hscan
        exact ⟨pre, rest, rs, hbytes, hlead, hranges,
          numbers_yield (e := [.malformed]) hlead.proper hranges⟩
  refine ⟨fun xs => ⟨fun hcollect => ?_, fun htext => ?_⟩, hgood, hbad⟩
  · by_cases htext : ∃ rs, Text bytes rs
    · obtain ⟨rs, hrs⟩ := htext
      have hxs := (hgood rs hrs).2.collects.1 hcollect
      cases hxs
      exact ⟨rs, hrs, rfl⟩
    · obtain ⟨pre, rest, rs, _, _, _, hnumbers⟩ := hbad htext
      have hxs := hnumbers.collects_first.1 hcollect
      cases hxs
  · obtain ⟨rs, hrs, rfl⟩ := htext
    exact (hgood rs hrs).2.collects.2 rfl

end RsMalloc.Numa
