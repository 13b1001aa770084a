/-
The arenas of a node, as parts of memory.

An arena on a node's list owns two parts: the page of its record and
the rest of its data area, from `current` to `end`. What it has handed
out belongs to others. `ArenasAt` says so for the list of one node; the
functions of the page allocator exchange parts with it:

- `bump` cuts the bytes it hands out from the front of one arena's
  rest; the arena is unlinked when too little is left, and the page and
  the rest are then forgotten;
- growing in place cuts from the same end, when the caller's part ends
  exactly where the rest begins;
- a new arena is a fresh mapping, cut into its two parts.

Only the records of arenas on the node's own list are written, so the
lists of other nodes are left alone: their record pages are elsewhere.
-/
import RsMalloc.Ground.Space
import RsMalloc.Lib.DList
import RsMalloc.Pages.Model

namespace RsMalloc.Pages

-- ================================================================ arenas

/-- An arena with the parts it owns, and the size of its mapping. -/
structure Arena where
  page : Part
  rest : Part
  record : PageArena
  size : Nat

namespace Arena

/-- How the arenas of a node are linked. -/
def links : Links Arena Nat where
  addr e := e.page.base
  next e := e.record.next
  prev e := e.record.prev

/-- The parts are where the record says. An arena keeps room for a
refill as long as arenas are made larger than that, and the size they
are made with does not wrap. -/
structure Ok (cfg : Config) (e : Arena) : Prop where
  page_kind : e.page.kind = .raw (e.page.base, e.size)
  page_len : e.page.len = pageSize
  rest_kind : e.rest.kind = .raw (e.page.base, e.size)
  rest_base : e.rest.base = e.record.current
  rest_len : e.record.current + e.rest.len = e.record.end_
  base : e.record.base = e.page.base + pageSize
  above : e.page.base + pageSize ≤ e.record.current
  align : e.record.current % pageSize = 0
  room : 256 * 1024 ≤ cfg.arenaSize → cfg.arenaSize ≤ 2 ^ 64 - 4096 →
    minRefillBytes ≤ e.rest.len

variable {cfg : Config}

/-- The arena with another `next` link. -/
def setNext (e : Arena) (v : Nat) : Arena :=
  { e with record := { e.record with next := v } }

/-- The arena with another `prev` link. -/
def setPrev (e : Arena) (v : Nat) : Arena :=
  { e with record := { e.record with prev := v } }

theorem Ok.setNext {e : Arena} (h : e.Ok cfg) (v : Nat) :
    (e.setNext v).Ok cfg :=
  ⟨h.1, h.2, h.3, h.4, h.5, h.6, h.7, h.8, h.9⟩

theorem Ok.setPrev {e : Arena} (h : e.Ok cfg) (v : Nat) :
    (e.setPrev v).Ok cfg :=
  ⟨h.1, h.2, h.3, h.4, h.5, h.6, h.7, h.8, h.9⟩

end Arena

/-- Where the record pages are. -/
def bases (l : List Arena) : List Nat := l.map fun e => e.page.base

/-- The parts of a list of arenas. -/
def parts (l : List Arena) : Multiset Part :=
  (l.map fun e => ({e.page} + {e.rest} : Multiset Part)).sum

section Parts

variable {l l₁ l₂ : List Arena} {e : Arena} {p : Part}

@[simp] theorem bases_nil : bases [] = [] := rfl

@[simp] theorem bases_cons :
    bases (e :: l) = e.page.base :: bases l := rfl

@[simp] theorem bases_append :
    bases (l₁ ++ l₂) = bases l₁ ++ bases l₂ := List.map_append

theorem mem_bases {b : Nat} : b ∈ bases l ↔ ∃ e ∈ l, e.page.base = b :=
  List.mem_map

theorem base_mem_bases (he : e ∈ l) : e.page.base ∈ bases l :=
  mem_bases.2 ⟨e, he, rfl⟩

@[simp] theorem parts_nil : parts [] = 0 := rfl

@[simp] theorem parts_cons :
    parts (e :: l) = {e.page} + {e.rest} + parts l := by
  simp [parts]

@[simp] theorem parts_append :
    parts (l₁ ++ l₂) = parts l₁ + parts l₂ := by
  simp [parts]

theorem mem_parts : p ∈ parts l ↔ ∃ e ∈ l, p = e.page ∨ p = e.rest := by
  induction l with
  | nil => simp
  | cons a l ih => simp [ih, or_assoc]

theorem page_mem_parts (he : e ∈ l) : e.page ∈ parts l :=
  mem_parts.2 ⟨e, he, Or.inl rfl⟩

/-- Arenas hold no blocks. -/
theorem headers_parts {cfg : Config} (h : ∀ e ∈ l, e.Ok cfg) :
    headers (parts l) = 0 := by
  induction l with
  | nil => rfl
  | cons e l ih =>
      have he := h e (List.mem_cons_self ..)
      rw [parts_cons, headers_add, headers_add,
        headers_singleton_of_not (by rw [he.page_kind]; rfl),
        headers_singleton_of_not (by rw [he.rest_kind]; rfl),
        ih fun a ha => h a (List.mem_cons_of_mem _ ha)]
      rfl

end Parts

/-- The records of the arenas are in the table. -/
def Recorded (s : PageState) (l : List Arena) : Prop :=
  ∀ e ∈ l, s.arena e.page.base = e.record

/-- The list of node `n` is `l`. -/
structure ListAt (cfg : Config) (s : PageState) (n : Nat)
    (l : List Arena) : Prop where
  list : ∃ t, DSeg Arena.links 0 (s.node n).arenas l t 0
  head : (s.node n).current = (s.node n).arenas
  record : Recorded s l
  ok : ∀ e ∈ l, e.Ok cfg

/-- The arenas of node `n` own the parts `X`. -/
def ArenasAt (cfg : Config) (s : PageState) (n : Nat)
    (X : Multiset Part) : Prop :=
  ∃ l, ListAt cfg s n l ∧ X = parts l

/-- The record pages of a held list are at different addresses, none of
them null. -/
theorem pages_apart {cfg : Config} {g : Ground} {l : List Arena}
    {F : Multiset Part} (h : Space cfg g (parts l + F))
    (hok : ∀ e ∈ l, e.Ok cfg) :
    (bases l).Nodup ∧ 0 ∉ bases l := by
  induction l generalizing F with
  | nil => exact ⟨List.nodup_nil, List.not_mem_nil⟩
  | cons e l ih =>
      have he := hok e (List.mem_cons_self ..)
      have hl : ∀ a ∈ l, a.Ok cfg := fun a ha =>
        hok a (List.mem_cons_of_mem _ ha)
      rw [parts_cons, show {e.page} + {e.rest} + parts l + F
        = parts l + ({e.page} + {e.rest} + F) by abel] at h
      obtain ⟨hnd, hne⟩ := ih h hl
      rw [show parts l + ({e.page} + {e.rest} + F)
        = {e.page} + (parts l + ({e.rest} + F)) by abel] at h
      have hlen : 0 < e.page.len := by rw [he.page_len]; decide
      rw [bases_cons, List.nodup_cons, List.mem_cons, not_or]
      refine ⟨⟨fun hmem => ?_, hnd⟩, fun hzero => ?_, hne⟩
      · obtain ⟨a, ha, heq⟩ := mem_bases.1 hmem
        have hpa : 0 < a.page.len := by rw [(hl a ha).page_len]; decide
        exact h.holds.base_ne (Multiset.mem_add.2
          (Or.inl (page_mem_parts ha))) hlen hpa heq
      · have hb := (h.bounds (Multiset.mem_add.2 (Or.inl
          (Multiset.mem_singleton_self _)))
          (x := e.page.base) ⟨le_rfl, by omega⟩).1
        simp only [pageSize] at hb
        omega

-- ============================================================= unlinking

section Remove

variable {s : PageState} {l l₁ l₂ : List Arena} {e a : Arena} {n v b : Nat}

/-- Rewriting a record that is not on the list. -/
theorem Recorded.setArena (h : Recorded s l) {r : PageArena}
    (hb : b ∉ bases l) : Recorded (s.setArena b r) l := by
  intro e he
  have hne : e.page.base ≠ b := by
    rintro rfl
    exact hb (base_mem_bases he)
  unfold PageState.setArena
  dsimp only
  rw [Function.update_of_ne hne]
  exact h e he

/-- Rewriting the record of one arena of the list. -/
theorem Recorded.replace (h : Recorded s (l₁ ++ e :: l₂))
    (hnd : (bases (l₁ ++ e :: l₂)).Nodup)
    (hp : a.page = e.page) :
    Recorded (s.setArena e.page.base a.record) (l₁ ++ a :: l₂) := by
  rw [bases_append, bases_cons, List.nodup_append,
    List.nodup_cons] at hnd
  obtain ⟨-, ⟨h₂, -⟩, h₁⟩ := hnd
  intro b hb
  rcases List.mem_append.1 hb with hb | hb
  · refine Recorded.setArena (l := l₁) (fun c hc => h c ?_) ?_ b hb
    · exact List.mem_append.2 (Or.inl hc)
    · exact fun hmem => h₁ _ hmem _ (List.mem_cons_self ..) rfl
  · rcases List.mem_cons.1 hb with rfl | hb
    · rw [hp]
      exact Function.update_self ..
    · refine Recorded.setArena (l := l₂) (fun c hc => h c ?_) h₂ b hb
      exact List.mem_append.2 (Or.inr (List.mem_cons_of_mem _ hc))

/-- `e'` is `e` with other links. -/
structure Same (e e' : Arena) : Prop where
  page : e'.page = e.page
  rest : e'.rest = e.rest
  ok : ∀ cfg, e.Ok cfg → e'.Ok cfg

theorem Same.refl (e : Arena) : Same e e := ⟨rfl, rfl, fun _ h => h⟩

section SameLists

variable {l' : List Arena}

theorem same_refl (l : List Arena) : List.Forall₂ Same l l :=
  List.forall₂_same.2 fun e _ => Same.refl e

theorem parts_same (h : List.Forall₂ Same l l') : parts l' = parts l := by
  induction h with
  | nil => rfl
  | cons he _ ih => rw [parts_cons, parts_cons, he.page, he.rest, ih]

theorem bases_same (h : List.Forall₂ Same l l') :
    bases l' = bases l := by
  induction h with
  | nil => rfl
  | cons he _ ih => rw [bases_cons, bases_cons, he.page, ih]

theorem ok_same {cfg : Config} (h : List.Forall₂ Same l l')
    (hok : ∀ e ∈ l, e.Ok cfg) : ∀ e ∈ l', e.Ok cfg := by
  induction h with
  | nil => exact nofun
  | cons he _ ih =>
      rw [List.forall_mem_cons] at hok ⊢
      exact ⟨he.ok cfg hok.1, ih hok.2⟩

end SameLists

/-- A step of node `n` writes only the records at `B`. -/
structure Local (n : Nat) (B : List Nat) (s s' : PageState) : Prop where
  node : ∀ j, j ≠ n → s'.node j = s.node j
  arena : ∀ b, b ∉ B → s'.arena b = s.arena b

namespace Local

variable {B : List Nat} {s' s'' : PageState}

theorem refl (n : Nat) (B : List Nat) (s : PageState) : Local n B s s :=
  ⟨fun _ _ => rfl, fun _ _ => rfl⟩

theorem trans (h : Local n B s s') (h' : Local n B s' s'') :
    Local n B s s'' where
  node j hj := (h'.node j hj).trans (h.node j hj)
  arena b hb := (h'.arena b hb).trans (h.arena b hb)

theorem setArena (hb : b ∈ B) (r : PageArena) :
    Local n B s (s.setArena b r) where
  node _ _ := rfl
  arena c hc := by
    refine Function.update_of_ne ?_ _ _
    rintro rfl
    exact hc hb

theorem setNode (st : NodeArenaState) : Local n B s (s.setNode n st) where
  node _ hj := Function.update_of_ne hj _ _
  arena _ _ := rfl

end Local

/-- `if prev != null { (*prev).next = v } else { state.arenas = v }`, at
the end `m` of the list's front. -/
def relinkPrev (n m v : Nat) (s : PageState) : PageState :=
  if m ≠ 0 then s.setArena m { s.arena m with next := v }
  else s.setNode n { s.node n with arenas := v }

/-- `if next != null { (*next).prev = v }`. -/
def relinkNext (h v : Nat) (s : PageState) : PageState :=
  if h ≠ 0 then s.setArena h { s.arena h with prev := v } else s

theorem relinkPrev_spec {m k : Nat}
    (hseg : DSeg Arena.links 0 (s.node n).arenas l₁ m k)
    (hrec : Recorded s (l₁ ++ l₂))
    (hnd : (bases (l₁ ++ l₂)).Nodup)
    (hne : 0 ∉ bases (l₁ ++ l₂)) (v : Nat) :
    ∃ l₁', DSeg Arena.links 0 ((relinkPrev n m v s).node n).arenas l₁' m v
      ∧ Recorded (relinkPrev n m v s) (l₁' ++ l₂)
      ∧ List.Forall₂ Same l₁ l₁'
      ∧ Local n (bases (l₁ ++ l₂)) s
        (relinkPrev n m v s)
      ∧ ((relinkPrev n m v s).node n).current = (s.node n).current := by
  unfold relinkPrev
  rcases List.eq_nil_or_concat' l₁ with rfl | ⟨l₁, b, rfl⟩
  · obtain ⟨rfl, rfl⟩ := hseg
    rw [if_neg (not_not.2 rfl)]
    refine ⟨[], ?_, hrec, List.Forall₂.nil, Local.setNode _, ?_⟩ <;>
      simp [PageState.setNode]
  · have hm : m = b.page.base := hseg.concat_ends.1
    have hb : b ∈ l₁ ++ [b] ++ l₂ := by simp
    have hm0 : m ≠ 0 := fun hzero =>
      hne (mem_bases.2 ⟨b, hb, hm.symm.trans hzero⟩)
    rw [if_pos hm0, hm, hrec b hb]
    refine ⟨l₁ ++ [b.setNext v], ?_, ?_, ?_, ?_, rfl⟩
    · rw [← hm]
      exact hseg.replace_last (b.setNext v) rfl rfl
    · rw [List.append_assoc, List.singleton_append] at hrec hnd ⊢
      exact hrec.replace hnd rfl
    · refine List.rel_append (same_refl l₁)
        (List.Forall₂.cons ⟨rfl, rfl, fun _ h => h.setNext v⟩ List.Forall₂.nil)
    · exact Local.setArena (base_mem_bases hb) _

theorem relinkNext_spec {h t : Nat} (hseg : DSeg Arena.links b h l₂ t 0)
    (hrec : Recorded s (l₁ ++ l₂)) (hnd : (bases (l₁ ++ l₂)).Nodup)
    (hne : 0 ∉ bases (l₁ ++ l₂)) (v : Nat) :
    ∃ l₂' t', DSeg Arena.links v h l₂' t' 0
      ∧ Recorded (relinkNext h v s) (l₁ ++ l₂')
      ∧ List.Forall₂ Same l₂ l₂'
      ∧ Local n (bases (l₁ ++ l₂)) s
        (relinkNext h v s)
      ∧ (relinkNext h v s).node n = s.node n := by
  unfold relinkNext
  cases l₂ with
  | nil =>
      obtain ⟨rfl, -⟩ := hseg
      rw [if_neg (not_not.2 rfl)]
      exact ⟨[], v, ⟨rfl, rfl⟩, hrec, List.Forall₂.nil, Local.refl _ _ _, rfl⟩
  | cons c l₂ =>
      have hh : c.page.base = h := hseg.1
      have hc : c ∈ l₁ ++ c :: l₂ := by simp
      have hc0 : c.page.base ≠ 0 := fun hzero =>
        hne (mem_bases.2 ⟨c, hc, hzero⟩)
      rw [← hh, if_pos hc0, hrec c hc]
      refine ⟨c.setPrev v :: l₂, t, ?_, hrec.replace hnd rfl, ?_, ?_, rfl⟩
      · rw [hh]
        exact hseg.replace_head (c.setPrev v) rfl rfl
      · exact List.Forall₂.cons ⟨rfl, rfl, fun _ h => h.setPrev v⟩ (same_refl l₂)
      · exact Local.setArena (base_mem_bases hc) _

/-- `if state.current == arena { state.current = next }`. -/
def moveCurrent (n arena next : Nat) (s : PageState) : PageState :=
  if (s.node n).current = arena then
    s.setNode n { s.node n with current := next }
  else s

/-- The last write of `remove_arena`. -/
def dropRecord (cfg : Config) (env : Env) (arena : Nat) (s : PageState) :
    PageState :=
  if 1024 * 1024 * 16 ≤ cfg.arenaSize ∧ env.ok then
    s.setArena arena .zeroed
  else s

theorem moveCurrent_arena {v : Nat} :
    (moveCurrent n b v s).arena = s.arena := by
  unfold moveCurrent
  split <;> rfl

theorem moveCurrent_node {v : Nat} : (moveCurrent n b v s).node n
    = ⟨if (s.node n).current = b then v else (s.node n).current,
      (s.node n).arenas⟩ := by
  unfold moveCurrent
  split
  · exact Function.update_self ..
  · rfl

theorem dropRecord_node {cfg : Config} {env : Env} :
    (dropRecord cfg env b s).node = s.node := by
  unfold dropRecord
  split <;> rfl

theorem Recorded.dropRecord {cfg : Config} {env : Env} (h : Recorded s l)
    (hb : b ∉ bases l) : Recorded (dropRecord cfg env b s) l := by
  unfold Pages.dropRecord
  split
  · exact h.setArena hb
  · exact h

theorem removeArena_eq (cfg : Config) (env : Env) {arena : Nat}
    (h : arena ≠ 0) : removeArena cfg env n arena s
      = dropRecord cfg env arena (moveCurrent n arena (s.arena arena).next
        (relinkNext (s.arena arena).next (s.arena arena).prev
          (relinkPrev n (s.arena arena).prev (s.arena arena).next s))) := by
  unfold removeArena
  rw [if_neg h]
  rfl

/-- The head of the list, after the list was moved past its first
arena if that is the one removed. -/
theorem head_after {h h' : Nat} {m k m' k' : Nat} {l₁' : List Arena}
    (h₁ : DSeg Arena.links 0 h l₁ m k) (hk : e.page.base = k)
    (h₁' : DSeg Arena.links 0 h' l₁' m' k') (hs : List.Forall₂ Same l₁ l₁')
    (hnd : (bases (l₁ ++ e :: l₂)).Nodup) :
    (if h = e.page.base then k' else h) = h' := by
  cases hs with
  | nil =>
      obtain ⟨rfl, -⟩ := h₁
      obtain ⟨rfl, -⟩ := h₁'
      rw [if_pos hk.symm]
  | @cons a a' l l' ha _ =>
      have hh : a.page.base = h := h₁.1
      have hh' : a'.page.base = h' := h₁'.1
      rw [List.cons_append, bases_cons, List.nodup_cons] at hnd
      rw [if_neg, ← hh, ← hh', ha.page]
      rintro rfl
      exact hnd.1 (mem_bases.2 ⟨e, by simp, hh.symm⟩)

/-- `remove_arena` takes one arena off the list of its node. -/
theorem removeArena_spec (cfg : Config) (env : Env) {t : Nat}
    (hseg : DSeg Arena.links 0 (s.node n).arenas (l₁ ++ e :: l₂) t 0)
    (hhead : (s.node n).current = (s.node n).arenas)
    (hrec : Recorded s (l₁ ++ e :: l₂)) (hok : ∀ a ∈ l₁ ++ l₂, a.Ok cfg)
    (hnd : (bases (l₁ ++ e :: l₂)).Nodup)
    (hne : 0 ∉ bases (l₁ ++ e :: l₂)) :
    (∃ l', ListAt cfg (removeArena cfg env n e.page.base s) n l'
        ∧ parts l' = parts (l₁ ++ l₂))
      ∧ Local n (bases (l₁ ++ e :: l₂)) s
        (removeArena cfg env n e.page.base s) := by
  obtain ⟨m, k, h₁, hk, hm, h₂⟩ := DSeg.append_iff.1 hseg
  have he : e ∈ l₁ ++ e :: l₂ := by simp
  have hprev : e.record.prev = m := hm
  have hback : DSeg Arena.links e.page.base e.record.next l₂ t 0 := h₂
  have he0 : e.page.base ≠ 0 := fun hzero =>
    hne (mem_bases.2 ⟨e, he, hzero⟩)
  rw [removeArena_eq cfg env he0, hrec e he, hprev]
  -- the front of the list now ends at the arena behind `e`
  obtain ⟨l₁', hs₁, hrec₁, hsame₁, hloc₁, hcur₁⟩ :=
    relinkPrev_spec h₁ hrec hnd hne e.record.next
  generalize relinkPrev n m e.record.next s = s₁ at *
  have hbases : bases (l₁' ++ e :: l₂) = bases (l₁ ++ e :: l₂) := by
    rw [bases_append, bases_append, bases_same hsame₁]
  -- the back of the list now starts behind the arena in front of `e`
  rw [List.append_cons] at hrec₁ hbases
  obtain ⟨l₂', t', hs₂, hrec₂, hsame₂, hloc₂, hnode₂⟩ :=
    relinkNext_spec (n := n) hback hrec₁ (hbases ▸ hnd) (hbases ▸ hne) m
  rw [hbases] at hloc₂
  generalize relinkNext e.record.next m s₁ = s₂ at *
  have hhead₂ := head_after h₁ hk hs₁ hsame₁ hnd
  have hloc₃ : Local n (bases (l₁ ++ e :: l₂)) s
      (moveCurrent n e.page.base e.record.next s₂) := by
    refine (hloc₁.trans hloc₂).trans ?_
    unfold moveCurrent
    split
    · exact Local.setNode _
    · exact Local.refl _ _ _
  have hloc₄ : Local n (bases (l₁ ++ e :: l₂))
      (moveCurrent n e.page.base e.record.next s₂)
      (dropRecord cfg env e.page.base
        (moveCurrent n e.page.base e.record.next s₂)) := by
    unfold dropRecord
    split
    · exact Local.setArena (base_mem_bases he) _
    · exact Local.refl _ _ _
  refine ⟨⟨l₁' ++ l₂', ⟨⟨t', ?_⟩, ?_, ?_, ?_⟩, ?_⟩, hloc₃.trans hloc₄⟩
  · rw [dropRecord_node, moveCurrent_node, hnode₂]
    exact DSeg.append_iff.2 ⟨m, e.record.next, hs₁, hs₂⟩
  · rw [dropRecord_node, moveCurrent_node, hnode₂, hcur₁, hhead]
    exact hhead₂
  · refine Recorded.dropRecord ?_ ?_
    · intro a ha
      rw [moveCurrent_arena]
      refine hrec₂ a ?_
      rcases List.mem_append.1 ha with ha | ha <;> simp [ha]
    · rw [← hbases, bases_append, bases_append, List.nodup_append,
        List.nodup_append] at hnd
      obtain ⟨⟨-, -, hfront⟩, -, hback⟩ := hnd
      rw [bases_append, bases_same hsame₂]
      intro hmem
      rcases List.mem_append.1 hmem with hmem | hmem
      · exact hfront _ hmem _ (by simp) rfl
      · exact hback _ (by simp) _ hmem rfl
  · intro a ha
    rcases List.mem_append.1 ha with ha | ha
    · refine ok_same hsame₁ (fun b hb => hok b ?_) a ha
      exact List.mem_append.2 (Or.inl hb)
    · refine ok_same hsame₂ (fun b hb => hok b ?_) a ha
      exact List.mem_append.2 (Or.inr hb)
  · rw [parts_append, parts_append, parts_same hsame₁, parts_same hsame₂]

end Remove

-- =========================================================== handing out

/-- Set `current` of an arena, and unlink it if too little is left. -/
def advance (cfg : Config) (env : Env) (n arena v : Nat) (s : PageState) :
    PageState :=
  let s' := s.setArena arena { s.arena arena with current := v }
  if (s.arena arena).end_ - v < minRefillBytes then
    removeArena cfg env n arena s'
  else s'

/-- The arena after `size` bytes were taken from its rest. -/
def Arena.take (e : Arena) (size : Nat) : Arena where
  page := e.page
  rest := ⟨e.rest.kind, e.rest.base + size, e.rest.len - size, e.rest.data⟩
  record := { e.record with current := e.record.current + size }
  size := e.size

/-- The bytes that were taken. -/
def Arena.taken (e : Arena) (size : Nat) : Part :=
  ⟨e.rest.kind, e.rest.base, size, e.rest.data⟩

section Bump

variable {cfg : Config} (env : Env) {g : Ground} {s : PageState}
  {l l₁ l₂ : List Arena} {e : Arena} {H : Multiset Part} {n size : Nat}

theorem Arena.Ok.take (h : e.Ok cfg) (hsize : size ≤ e.rest.len)
    (hal : size % pageSize = 0)
    (hroom : minRefillBytes ≤ e.rest.len - size) :
    (e.take size).Ok cfg where
  page_kind := h.page_kind
  page_len := h.page_len
  rest_kind := h.rest_kind
  rest_base := by
    show e.rest.base + size = e.record.current + size
    rw [h.rest_base]
  rest_len := by
    show e.record.current + size + (e.rest.len - size) = e.record.end_
    have := h.rest_len
    omega
  base := h.base
  above := h.above.trans (Nat.le_add_right _ _)
  align := by
    have := h.align
    show (e.record.current + size) % pageSize = 0
    simp only [pageSize] at this hal ⊢
    omega
  room _ _ := hroom

/-- Taking bytes from the front of an arena's rest. -/
theorem advance_spec (hl : ListAt cfg s n (l₁ ++ e :: l₂))
    (hsp : Space cfg g (parts (l₁ ++ e :: l₂) + H))
    (hsize : size ≤ e.rest.len) (hal : size % pageSize = 0) :
    ∃ X', ArenasAt cfg (advance cfg env n e.page.base
          (e.record.current + size) s) n X'
      ∧ Space cfg g (X' + ({e.taken size} + H))
      ∧ Local n (bases (l₁ ++ e :: l₂)) s
        (advance cfg env n e.page.base (e.record.current + size) s) := by
  have he : e ∈ l₁ ++ e :: l₂ := by simp
  have hok := hl.ok e he
  obtain ⟨hnd, hne⟩ := pages_apart hsp hl.ok
  obtain ⟨t, hseg⟩ := hl.list
  -- the list with the record rewritten
  have hrec := hl.record.replace (a := e.take size) hnd rfl
  have hseg' : DSeg Arena.links 0 (s.node n).arenas
      (l₁ ++ e.take size :: l₂) t 0 := by
    obtain ⟨m, k, h₁, h₂, h₃, h₄⟩ := DSeg.append_iff.1 hseg
    exact DSeg.append_iff.2 ⟨m, k, h₁, h₂, h₃, h₄⟩
  have hbases : bases (l₁ ++ e.take size :: l₂) = bases (l₁ ++ e :: l₂) := by
    simp [bases, Arena.take]
  -- the parts, with the rest cut in two
  have hcut : Space cfg g (parts (l₁ ++ l₂) + ({e.page}
      + ({(e.take size).rest} + ({e.taken size} + H)))) := by
    have h := hsp
    rw [parts_append, parts_cons,
      show parts l₁ + ({e.page} + {e.rest} + parts l₂) + H
        = {e.rest} + (parts (l₁ ++ l₂) + {e.page} + H) by
          rw [parts_append]; abel] at h
    have hcut := h.cut (n := size) (k := e.rest.len - size) (by omega)
      (by rw [hok.rest_kind]; rfl)
    rw [show parts (l₁ ++ l₂) + ({e.page}
        + ({(e.take size).rest} + ({e.taken size} + H)))
      = {e.taken size} + ({(e.take size).rest}
        + (parts (l₁ ++ l₂) + {e.page} + H)) by abel]
    exact hcut
  have hloc : Local n (bases (l₁ ++ e :: l₂)) s
      (s.setArena e.page.base (e.take size).record) :=
    Local.setArena (base_mem_bases he) _
  have hset : s.setArena e.page.base
        { s.arena e.page.base with current := e.record.current + size }
      = s.setArena e.page.base (e.take size).record := by
    rw [hl.record e he]
    rfl
  have hlen : (s.arena e.page.base).end_ - (e.record.current + size)
      = e.rest.len - size := by
    have := hok.rest_len
    rw [hl.record e he]
    omega
  unfold advance
  dsimp only
  rw [hset, hlen]
  split
  · -- too little is left: the record page and the rest are forgotten
    have hothers : ∀ a ∈ l₁ ++ l₂, a.Ok cfg := fun a ha => hl.ok a (by
      rcases List.mem_append.1 ha with ha | ha <;> simp [ha])
    have hrm := removeArena_spec
      (s := s.setArena e.page.base (e.take size).record)
      cfg env hseg' hl.head hrec hothers (hbases ▸ hnd) (hbases ▸ hne)
    rw [hbases] at hrm
    obtain ⟨⟨l', hl', hparts⟩, hloc'⟩ := hrm
    refine ⟨parts l', ⟨l', hl', rfl⟩, ?_, hloc.trans hloc'⟩
    rw [hparts]
    rw [show parts (l₁ ++ l₂) + ({e.page}
        + ({(e.take size).rest} + ({e.taken size} + H)))
      = ({e.page} + {(e.take size).rest})
        + (parts (l₁ ++ l₂) + ({e.taken size} + H)) by abel] at hcut
    refine hcut.drop fun p hp => Or.inl ?_
    rcases Multiset.mem_add.1 hp with hp | hp <;>
      rw [Multiset.mem_singleton] at hp <;> rw [hp]
    · exact ⟨_, hok.page_kind⟩
    · exact ⟨_, hok.rest_kind⟩
  · next hroom =>
    refine ⟨parts (l₁ ++ e.take size :: l₂),
      ⟨_, ⟨⟨t, hseg'⟩, hl.head, hrec, fun a ha => ?_⟩, rfl⟩, ?_, hloc⟩
    · rcases List.mem_append.1 ha with ha | ha
      · exact hl.ok a (by simp [ha])
      · rcases List.mem_cons.1 ha with rfl | ha
        · exact hok.take hsize hal (by omega)
        · exact hl.ok a (by simp [ha])
    · rw [parts_append, parts_cons]
      rw [show parts (l₁ ++ l₂) + ({e.page}
          + ({(e.take size).rest} + ({e.taken size} + H)))
        = parts l₁ + ({(e.take size).page} + {(e.take size).rest}
          + parts l₂) + ({e.taken size} + H) by
          rw [parts_append, show (e.take size).page = e.page from rfl]
          abel] at hcut
      exact hcut

/-- The lists of the other nodes, whose parts are among `H`, survive. -/
def Keeps (cfg : Config) (H : Multiset Part) (n : Nat)
    (s s' : PageState) : Prop :=
  ∀ j Y, j ≠ n → Y ≤ H → ArenasAt cfg s j Y → ArenasAt cfg s' j Y

theorem Keeps.refl (H : Multiset Part) (n : Nat) (s : PageState) :
    Keeps cfg H n s s := fun _ _ _ _ h => h

theorem Keeps.trans {s' s'' : PageState} (h : Keeps cfg H n s s')
    (h' : Keeps cfg H n s' s'') : Keeps cfg H n s s'' :=
  fun j Y hj hY hs => h' j Y hj hY (h j Y hj hY hs)

/-- Records elsewhere are not on the lists of other nodes. -/
theorem Local.keeps {B : List Nat} {s' : PageState} (h : Local n B s s')
    (hB : ∀ p ∈ H, 0 < p.len → p.base ∉ B) : Keeps cfg H n s s' := by
  rintro j Y hj hY ⟨l, hl, rfl⟩
  refine ⟨l, ⟨?_, ?_, fun e he => ?_, hl.ok⟩, rfl⟩
  · rw [h.node j hj]
    exact hl.list
  · rw [h.node j hj]
    exact hl.head
  · have hlen : 0 < e.page.len := by
      rw [(hl.ok e he).page_len]
      decide
    rw [h.arena _ (hB e.page (Multiset.mem_of_le hY (page_mem_parts he)) hlen)]
    exact hl.record e he

/-- Parts of others do not start where a record page of the list is. -/
theorem base_notMem_bases (hsp : Space cfg g (parts l + H))
    (hok : ∀ e ∈ l, e.Ok cfg) : ∀ p ∈ H, 0 < p.len → p.base ∉ bases l := by
  intro p hp hlen hmem
  obtain ⟨e, he, heq⟩ := mem_bases.1 hmem
  obtain ⟨R, hR⟩ := Multiset.exists_cons_of_mem (page_mem_parts he)
  have hheld := hsp.holds
  rw [hR, ← Multiset.singleton_add, add_assoc] at hheld
  refine hheld.base_ne (q := p) (Multiset.mem_add.2 (Or.inr hp)) ?_ hlen
    heq.symm
  rw [(hok e he).page_len]
  decide

/-- Outcome of a call that hands out `size` bytes of node `n`, or
nothing. -/
inductive Handed (cfg : Config) (H : Multiset Part) (n size : Nat)
    (s : PageState) : Option Nat × Ground × PageState → Prop
  | none {g' : Ground} {s' : PageState} {X' : Multiset Part}
      (arenas : ArenasAt cfg s' n X') (space : Space cfg g' (X' + H))
      (keeps : Keeps cfg H n s s') : Handed cfg H n size s (none, g', s')
  | some {g' : Ground} {s' : PageState} {X' : Multiset Part} {ptr : Nat}
      {m : Nat × Nat} {data : Mem} (arenas : ArenasAt cfg s' n X')
      (space : Space cfg g' (X' + ({⟨.raw m, ptr, size, data⟩} + H)))
      (above : m.1 + pageSize ≤ ptr) (align : ptr % pageSize = 0)
      (keeps : Keeps cfg H n s s') :
      Handed cfg H n size s (some ptr, g', s')

/-- `bump` on an arena of the list: nothing, or the front of its
rest. -/
theorem bump_spec (hl : ListAt cfg s n (l₁ ++ e :: l₂))
    (hsp : Space cfg g (parts (l₁ ++ e :: l₂) + H))
    (hal : size % pageSize = 0) :
    bump cfg env n e.page.base size s = (none, s)
    ∨ (bump cfg env n e.page.base size s).1.isSome
      ∧ Handed cfg H n size s ((bump cfg env n e.page.base size s).1, g,
        (bump cfg env n e.page.base size s).2) := by
  have he : e ∈ l₁ ++ e :: l₂ := by simp
  have hok := hl.ok e he
  have hkeeps := base_notMem_bases hsp hl.ok
  have hend := hok.rest_len
  unfold bump
  rw [hl.record e he]
  unfold checkedAdd
  split
  · exact Or.inl rfl
  · next next hnext =>
    split at hnext
    case isFalse => cases hnext
    cases hnext
    split
    · exact Or.inl rfl
    · next hle =>
      have hsize : size ≤ e.rest.len := by omega
      obtain ⟨X', hX', hsp', hloc⟩ := advance_spec env hl hsp hsize hal
      have hs' : advance cfg env n e.page.base (e.record.current + size) s
          = if e.record.end_ - (e.record.current + size) < minRefillBytes
            then removeArena cfg env n e.page.base (s.setArena e.page.base
              { e.record with current := e.record.current + size })
            else s.setArena e.page.base
              { e.record with current := e.record.current + size } := by
        unfold advance
        rw [hl.record e he]
      have htaken : ({e.taken size} : Multiset Part)
          = {⟨.raw (e.page.base, e.size), e.record.current, size,
              e.rest.data⟩} := by
        rw [Arena.taken, hok.rest_kind, hok.rest_base]
      rw [htaken] at hsp'
      have hout := Handed.some hX' hsp' hok.above hok.align
        (hloc.keeps hkeeps)
      rw [hs'] at hout
      have hupd : (s.setArena e.page.base
          { e.record with current := e.record.current + size }).arena
            e.page.base
          = { e.record with current := e.record.current + size } :=
        Function.update_self ..
      dsimp only
      rw [hupd]
      dsimp only
      split
      · next hlt =>
        rw [if_pos hlt] at hout
        exact Or.inr ⟨rfl, hout⟩
      · next hlt =>
        rw [if_neg hlt] at hout
        exact Or.inr ⟨rfl, hout⟩

/-- What the allocating functions answer on a list of node `n`: nothing
and no change, or bytes of one of its arenas. -/
def Answers (cfg : Config) (g : Ground) (H : Multiset Part) (n size : Nat)
    (s : PageState) (out : Option Nat × PageState) : Prop :=
  out = (none, s)
    ∨ out.1.isSome ∧ Handed cfg H n size s (out.1, g, out.2)

theorem allocateCurrent_spec (hl : ListAt cfg s n l)
    (hsp : Space cfg g (parts l + H)) (hal : size % pageSize = 0) :
    Answers cfg g H n size s (allocateCurrent cfg env n size s) := by
  unfold allocateCurrent
  split
  · exact Or.inl rfl
  · next hne =>
    obtain ⟨t, hseg⟩ := hl.list
    rw [hl.head] at hne ⊢
    cases l with
    | nil => exact absurd hseg.1 hne
    | cons e l =>
        rw [← show e.page.base = (s.node n).arenas from hseg.1]
        have hl' : ListAt cfg s n ([] ++ e :: l) := hl
        exact bump_spec env hl' hsp hal

/-- The walk stands at the first arena of the back `l₂` of the list. -/
theorem allocateSearch_spec (hsp : Space cfg g (parts l + H))
    (hal : size % pageSize = 0) (fuel : Nat) {b t arena : Nat}
    (hl : ListAt cfg s n l) (hsplit : l = l₁ ++ l₂)
    (hseg : DSeg Arena.links b arena l₂ t 0) :
    Answers cfg g H n size s
      (allocateSearch cfg env n size fuel arena s) := by
  induction fuel generalizing l₁ l₂ b arena with
  | zero => exact Or.inl rfl
  | succ fuel ih =>
      unfold allocateSearch
      split
      · exact Or.inl rfl
      · next hne =>
        cases l₂ with
        | nil => exact absurd hseg.1 hne
        | cons e l₂ =>
            have harena : e.page.base = arena := hseg.1
            have hrec := hl.record e (by simp [hsplit])
            -- the walk goes on behind `e`
            have hon : Answers cfg g H n size s (allocateSearch cfg env n
                size fuel (s.arena arena).next s) := by
              rw [← harena, hrec]
              have hsplit' : l = (l₁ ++ [e]) ++ l₂ := by
                rw [hsplit]
                simp
              exact ih hsplit' hseg.2.2
            split
            · exact hon
            · subst hsplit
              have hbump := bump_spec env hl hsp hal
              rw [harena] at hbump
              split
              · next ptr s' heq =>
                rw [heq] at hbump
                rcases hbump with hbump | hbump
                · cases hbump
                · exact Or.inr hbump
              · exact hon

/-- The arena of a fresh mapping at `a`, in front of the list from
`head`. -/
def Arena.fresh (head a size : Nat) (m : Mem) : Arena where
  page := ⟨.raw (a, pageSize + size), a, pageSize, m⟩
  rest := ⟨.raw (a, pageSize + size), a + pageSize, size, m⟩
  record := ⟨head, 0, a + pageSize, a + pageSize + size, a + pageSize⟩
  size := pageSize + size

theorem Arena.fresh_ok {head a : Nat} (m : Mem) (ha : a % pageSize = 0)
    (hroom : 256 * 1024 ≤ cfg.arenaSize → cfg.arenaSize ≤ 2 ^ 64 - 4096 →
      minRefillBytes ≤ size) : (Arena.fresh head a size m).Ok cfg :=
  ⟨rfl, rfl, rfl, rfl, rfl, rfl, le_rfl,
    (Nat.add_mod_right a pageSize).trans ha, hroom⟩

/-- The record writes of `new_arena_locked`. -/
def linkArena (n a : Nat) (r : PageArena) (s : PageState) : PageState :=
  (relinkNext (s.node n).arenas a (s.setArena a r)).setNode n ⟨a, a⟩

/-- A new arena is linked in front of the list. -/
theorem linkArena_spec {a : Nat} (m : Mem) (hl : ListAt cfg s n l)
    (hnd : (bases l).Nodup) (hne : 0 ∉ bases l) (ha : a ∉ bases l)
    (ha0 : a ≠ 0)
    (hok : (Arena.fresh (s.node n).arenas a size m).Ok cfg) :
    (∃ l', ListAt cfg (linkArena n a
          (Arena.fresh (s.node n).arenas a size m).record s) n
          (Arena.fresh (s.node n).arenas a size m :: l')
        ∧ parts l' = parts l)
      ∧ Local n (a :: bases l) s (linkArena n a
        (Arena.fresh (s.node n).arenas a size m).record s) := by
  obtain ⟨t, hseg⟩ := hl.list
  set e := Arena.fresh (s.node n).arenas a size m with he
  have hrec : Recorded (s.setArena a e.record) ([e] ++ l) := by
    intro b hb
    rcases List.mem_cons.1 hb with rfl | hb
    · exact Function.update_self ..
    · exact (Recorded.setArena hl.record ha) b hb
  have hnd' : (bases ([e] ++ l)).Nodup := List.nodup_cons.2 ⟨ha, hnd⟩
  have hne' : 0 ∉ bases ([e] ++ l) := by
    rw [List.singleton_append, bases_cons, List.mem_cons, not_or]
    exact ⟨ha0.symm, hne⟩
  obtain ⟨l', t', hseg', hrec', hsame, hloc, -⟩ :=
    relinkNext_spec (n := n) hseg hrec hnd' hne' a
  have hnode : (linkArena n a e.record s).node n = ⟨a, a⟩ :=
    Function.update_self ..
  refine ⟨⟨l', ⟨⟨t', ?_⟩, ?_, hrec', ?_⟩, parts_same hsame⟩, ?_⟩
  · rw [hnode]
    exact ⟨rfl, rfl, hseg'⟩
  · rw [hnode]
  · rw [List.forall_mem_cons]
    exact ⟨hok, ok_same hsame hl.ok⟩
  · exact ((Local.setArena (List.mem_cons_self ..) _).trans hloc).trans
      (Local.setNode _)

/-- A fresh mapping becomes the first arena of the list. -/
theorem newArenaLocked_spec (hl : ListAt cfg s n l)
    (hsp : Space cfg g (parts l + H)) {requested : Nat}
    (hreq : requested % pageSize = 0) (hlt : requested < 2 ^ 64) :
    newArenaLocked cfg env n requested g s = (none, g, s)
    ∨ ∃ g' s' l', newArenaLocked cfg env n requested g s = (some (), g', s')
      ∧ ListAt cfg s' n l' ∧ Space cfg g' (parts l' + H)
      ∧ Keeps cfg H n s s' := by
  have hdal : alignTo (max requested cfg.arenaSize) pageSize % pageSize = 0 :=
    Nat.mul_mod_left _ _
  have hroom : 256 * 1024 ≤ cfg.arenaSize →
      cfg.arenaSize ≤ 2 ^ 64 - 4096 → minRefillBytes ≤ alignTo (max requested cfg.arenaSize) pageSize := by
    intro h₁ h₂
    rw [minRefillBytes_eq]
    simp only [alignTo, pageSize] at hreq ⊢
    omega
  unfold newArenaLocked
  generalize alignTo (max requested cfg.arenaSize) pageSize = dataSize at *
  dsimp only
  unfold checkedAdd
  split
  · exact Or.inl rfl
  · next mapSize hmap =>
    split at hmap
    case isFalse => cases hmap
    cases hmap
    rcases Space.mmap_cases g env.offer (pageSize + dataSize)
      with hfail | ⟨a, hpos, hplace, hok⟩
    · rw [hfail]
      exact Or.inl rfl
    · have hup : pageUp (pageSize + dataSize) = pageSize + dataSize := by
        simp only [pageUp, pageSize] at hdal ⊢
        omega
      rw [hok, hup]
      rw [hup] at hplace
      have hcut := (hsp.map_fresh hpos hplace).cut
        (n := pageSize) (k := dataSize) rfl rfl
      obtain ⟨ha0, halign, hlim, hfree⟩ := hplace
      obtain ⟨hnd, hne⟩ := pages_apart hsp hl.ok
      -- no record page is where the kernel put the mapping
      have hnew : ∀ p ∈ parts l + H, 0 < p.len → p.base ≠ a := by
        rintro p hp hlen rfl
        obtain ⟨m, hm, h₁, h₂⟩ := hsp.mapped p hp p.base ⟨le_rfl, by omega⟩
        rcases hfree m hm with hf | hf <;> omega
      have ha : a ∉ bases l := by
        intro hmem
        obtain ⟨e, he, heq⟩ := mem_bases.1 hmem
        refine hnew e.page ?_ ?_ heq
        · exact Multiset.mem_add.2 (Or.inl (page_mem_parts he))
        · rw [(hl.ok e he).page_len]
          decide
      obtain ⟨⟨l', hl', hparts⟩, hloc⟩ := linkArena_spec
        (Mem.zero g.mem a (pageSize + dataSize)) hl hnd hne ha
        (Nat.pos_iff_ne_zero.1 ha0) (Arena.fresh_ok _ halign hroom)
      dsimp only
      rw [if_pos (by simp only [userLimit] at hlim; omega)]
      refine Or.inr ⟨_, _, _, rfl, hl', ?_, ?_⟩
      · rw [parts_cons, hparts, add_assoc, add_assoc]
        exact hcut
      · refine hloc.keeps fun p hp hlen hmem => ?_
        rcases List.mem_cons.1 hmem with heq | hmem
        · exact hnew p (Multiset.mem_add.2 (Or.inr hp)) hlen heq
        · exact base_notMem_bases hsp hl.ok p hp hlen hmem

/-- `PageAllocator::alloc` hands out a fresh page-aligned part of the
rounded size, or nothing. -/
theorem alloc_spec {X : Multiset Part} {nodeId : Nat} (size fuel : Nat)
    (hX : ArenasAt cfg s (nodeOf cfg nodeId) X)
    (hsp : Space cfg g (X + H)) :
    Handed cfg H (nodeOf cfg nodeId) (alignTo (max size 1) pageSize) s
      (alloc cfg env fuel nodeId size g s) := by
  have hal : alignTo (max size 1) pageSize % pageSize = 0 :=
    Nat.mul_mod_left _ _
  have hlt : alignTo (max size 1) pageSize < 2 ^ 64 := by
    simp only [alignTo, pageSize]
    omega
  have hsame : Handed cfg H (nodeOf cfg nodeId)
      (alignTo (max size 1) pageSize) s (none, g, s) :=
    .none hX hsp (Keeps.refl H _ s)
  obtain ⟨l, hl, rfl⟩ := hX
  unfold alloc
  generalize alignTo (max size 1) pageSize = total at *
  generalize nodeOf cfg nodeId = n at *
  dsimp only
  split
  · exact hsame
  · have hcur := allocateCurrent_spec env hl hsp hal
    split
    · next ptr s' heq =>
      rw [heq] at hcur
      rcases hcur with hcur | hcur
      · cases hcur
      · exact hcur.2
    · next s' heq =>
      rw [heq] at hcur
      rcases hcur with hcur | hcur
      case inr => cases hcur.1
      cases hcur
      obtain ⟨t, hseg⟩ := hl.list
      have hsearch := allocateSearch_spec env hsp hal fuel hl
        (List.nil_append l).symm hseg
      split
      · next ptr s' heq =>
        rw [heq] at hsearch
        rcases hsearch with hsearch | hsearch
        · cases hsearch
        · exact hsearch.2
      · next s' heq =>
        rw [heq] at hsearch
        rcases hsearch with hsearch | hsearch
        case inr => cases hsearch.1
        cases hsearch
        rcases newArenaLocked_spec env hl hsp hal hlt
          with hfail | ⟨g', s', l', hok, hl', hsp', hkeeps⟩
        · rw [hfail]
          exact hsame
        · rw [hok]
          dsimp only
          have hlast := allocateCurrent_spec env hl' hsp' hal
          generalize allocateCurrent cfg env n total s' = out at hlast ⊢
          rcases hlast with rfl | ⟨-, hgot⟩
          · exact .none ⟨l', hl', rfl⟩ hsp' hkeeps
          · obtain ⟨ptr, s''⟩ := out
            cases hgot with
            | none arenas space keeps =>
                exact .none arenas space (hkeeps.trans keeps)
            | some arenas space above align keeps =>
                exact .some arenas space above align (hkeeps.trans keeps)

/-- What `try_grow_inplace` does for a span from `ptr` of `old` bytes
that is to have `new`: nothing, nothing because it has them, or it adds
the bytes behind the span. -/
inductive Grown (cfg : Config) (g : Ground) (H : Multiset Part)
    (n ptr old new : Nat) (s : PageState) : Bool × PageState → Prop
  | no : Grown cfg g H n ptr old new s (false, s)
  | fits (le : new ≤ old) : Grown cfg g H n ptr old new s (true, s)
  | more {s' : PageState} {X' : Multiset Part} {m : Nat × Nat} {data : Mem}
      (lt : old < new) (arenas : ArenasAt cfg s' n X')
      (space : Space cfg g
        (X' + ({⟨.raw m, ptr + old, new - old, data⟩} + H)))
      (above : m.1 + pageSize ≤ ptr) (keeps : Keeps cfg H n s s') :
      Grown cfg g H n ptr old new s (true, s')

/-- The walk of `try_grow_inplace` stands at the first arena of the back
`l₂` of the list. -/
theorem growLoop_spec {addr old new : Nat}
    (hsp : Space cfg g (parts l + H)) (hold : old % pageSize = 0)
    (hnew : new % pageSize = 0) (hlt : old < new) (fuel : Nat)
    {b t arena : Nat} (hl : ListAt cfg s n l) (hsplit : l = l₁ ++ l₂)
    (hseg : DSeg Arena.links b arena l₂ t 0) :
    Grown cfg g H n addr old new s
      (growLoop cfg env n addr old new fuel arena s) := by
  induction fuel generalizing l₁ l₂ b arena with
  | zero => exact .no
  | succ fuel ih =>
      unfold growLoop
      split
      · exact .no
      · next hne =>
        cases l₂ with
        | nil => exact absurd hseg.1 hne
        | cons e l₂ =>
            have harena : e.page.base = arena := hseg.1
            have he : e ∈ l := by simp [hsplit]
            have hok := hl.ok e he
            rw [← harena, hl.record e he]
            dsimp only
            split
            case isFalse =>
              have hsplit' : l = (l₁ ++ [e]) ++ l₂ := by
                rw [hsplit]
                simp
              exact ih hsplit' hseg.2.2
            case isTrue hin =>
              unfold checkedAdd
              split
              · exact .no
              · split
                · exact .no
                · next oldEnd holdEnd =>
                  split at holdEnd
                  case isFalse => cases holdEnd
                  cases holdEnd
                  split
                  · exact .no
                  · next hcur =>
                    split
                    · exact .no
                    · next newEnd hnewEnd =>
                      split at hnewEnd
                      case isFalse => cases hnewEnd
                      cases hnewEnd
                      split
                      · exact .no
                      · next hend =>
                        -- the bytes behind the span are the front of the rest
                        have hbase := hok.base
                        have hlen := hok.rest_len
                        have hrest := hok.rest_base
                        subst hsplit
                        have hfit : new - old ≤ e.rest.len := by omega
                        obtain ⟨X', hX', hsp', hloc⟩ :=
                          advance_spec env hl hsp hfit (by
                            simp only [pageSize] at hold hnew ⊢
                            omega)
                        have htaken : ({e.taken (new - old)} : Multiset Part)
                            = {⟨.raw (e.page.base, e.size), addr + old,
                              new - old, e.rest.data⟩} := by
                          rw [Arena.taken, hok.rest_kind, hrest,
                            not_not.1 hcur]
                        have hmove : e.record.current + (new - old)
                            = addr + new := by omega
                        rw [hmove] at hX' hloc
                        rw [htaken] at hsp'
                        have hkeeps : Keeps cfg _ _ _ _ :=
                          hloc.keeps (base_notMem_bases hsp hl.ok)
                        have hout := Grown.more hlt hX' hsp' (by
                          show e.page.base + pageSize ≤ addr
                          omega) hkeeps
                        unfold advance at hout
                        rw [hl.record e he] at hout
                        dsimp only at hout
                        split <;> simp_all

/-- `PageAllocator::try_grow_inplace`. -/
theorem tryGrowInplace_spec {X : Multiset Part} {nodeId : Nat}
    (fuel ptr old new : Nat) (hX : ArenasAt cfg s (nodeOf cfg nodeId) X)
    (hsp : Space cfg g (X + H)) :
    Grown cfg g H (nodeOf cfg nodeId) ptr (alignTo (max old 1) pageSize)
      (alignTo (max new 1) pageSize) s
      (tryGrowInplace cfg env fuel nodeId ptr old new s) := by
  obtain ⟨l, hl, rfl⟩ := hX
  unfold tryGrowInplace
  dsimp only
  split
  · exact .no
  · split
    · next hle => exact .fits hle
    · next hlt =>
      split
      · exact .no
      · obtain ⟨t, hseg⟩ := hl.list
        exact growLoop_spec env hsp (Nat.mul_mod_left _ _)
          (Nat.mul_mod_left _ _) (Nat.lt_of_not_le hlt) fuel hl
          (List.nil_append l).symm hseg

end Bump

end RsMalloc.Pages
