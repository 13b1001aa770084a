/-
What a pass of `trim_small` does with the blocks it takes, with other
threads at work.

# The hand

While a pass is under way the blocks of one normal list are in its hand:
taken off the list and not yet put back. `Act` is a machine that knows
only the hand. It takes a whole list into an empty hand, links and marks
blocks of the hand, gives back pages inside their payloads, and puts
blocks back: a chain of at most sixteen on the normal list they came
from, or one block whose pages are gone on the trimmed list. Nothing
else ever happens to a list, to memory or to the record of `madvise`
calls.

# The others

Between two steps of a pass other threads may do anything that leaves
the blocks in the hand alone and leaves the normal lists lists (`Leaves`).
Every step of `trim_small` is then a step of the machine, and the hand
is empty at the end.
-/
import RsMalloc.Lib.Amid
import RsMalloc.Slab.Trimming

namespace RsMalloc.Slab

open Conc

attribute [local irreducible] Mem.load

variable {cfg : Config} {fuel : Nat}

-- ============================================================== the hand

/-- The blocks that a pass has taken off the normal list of `shard` and
not put back, and those of them whose pages it has given back. -/
structure Hand where
  shard : Nat × Nat
  held : List Nat
  given : List Nat

namespace Hand

/-- The hand before a pass. -/
def empty : Hand := ⟨(0, 0), [], []⟩

/-- The blocks of a CPU and class in the hand. -/
def of (g : Hand) (p : Nat × Nat) : List Nat :=
  if p = g.shard then g.held else []

/-- The hand without the blocks that are put back. -/
def left (g : Hand) (rest : List Nat) : Hand := { g with held := rest }

variable {g : Hand} {p : Nat × Nat}

theorem of_shard (g : Hand) : g.of g.shard = g.held := if_pos rfl

theorem of_ne (h : p ≠ g.shard) : g.of p = [] := if_neg h

theorem of_nil (h : g.held = []) : g.of p = [] := by
  unfold of
  split
  · exact h
  · rfl

end Hand

/-- The normal lists are lists; their blocks and those in the hand do
not overlap, and there are fewer than `fuel` for each CPU and class. -/
structure OrderlyWith (cfg : Config) (fuel : Nat)
    (contents : Nat × Nat → List Nat) (g : Hand) (s : State) : Prop where
  laid : Laid cfg fun p => g.of p ++ contents p
  lists : Filled contents (shards cfg) s
  short : ∀ p ∈ shards cfg, (g.of p ++ contents p).length < fuel
  shard : g.held ≠ [] → g.shard ∈ shards cfg
  real : 0 ∉ g.held

/-- The same, for some contents of the lists. -/
def Orderly (cfg : Config) (fuel : Nat) (g : Hand) (s : State) : Prop :=
  ∃ contents, OrderlyWith cfg fuel contents g s

/-- The bytes of these blocks are the same. -/
def Untouched (class_ : Nat) (l : List Nat) (m m' : Mem) : Prop :=
  ∀ h ∈ l, ∀ x, h ≤ x → x < h + blockBytes class_ → m' x = m x

/-- What other threads may do between two steps of a pass: they leave
the blocks in its hand alone, and keep the lists lists. -/
structure Leaves (cfg : Config) (fuel : Nat) (g : Hand) (s s' : State) :
    Prop where
  untouched : Untouched g.shard.2 g.held s.ground.mem s'.ground.mem
  orderly : Orderly cfg fuel g s → Orderly cfg fuel g s'

-- =========================================================== the machine

/-- Following the links from `head` one visits the blocks of `c`, and
`tail` is the last of them. -/
def Delimits (m : Mem) (head tail : Nat) (c : List Nat) : Prop :=
  ∃ c', c = c' ++ [tail] ∧ LinkedSeg (Header.next m) head c' tail

/-- A change that is seen neither in the lists nor in memory. -/
def Unseen (s s' : State) : Prop :=
  ∃ hint words ages trimLock, s' = { s with
    hint := hint, words := words, ages := ages, trimLock := trimLock }

/-- The range of a `madvise` call is whole pages, at least one, inside
the payload of its block. -/
structure InPayload (class_ : Nat) (e : Advice) : Prop where
  size : e.size = sizeClass class_
  start_aligned : pageSize ∣ e.start
  len_aligned : pageSize ∣ e.len
  nonempty : 0 < e.len
  above : e.block + headerSize ≤ e.start
  below : e.start + e.len ≤ e.block + headerSize + sizeClass class_

/-- A block in the hand or on a normal list. -/
def Known (cfg : Config) (g : Hand) (s : State) (b : Nat) : Prop :=
  b ∈ g.held
    ∨ ∃ p ∈ shards cfg, ∃ l, OnList s (.mail p.1 p.2) l ∧ b ∈ l

/-- The range covers no header. -/
def ClearOfHeaders (cfg : Config) (g : Hand) (s : State) (e : Advice) :
    Prop :=
  ∀ b, Known cfg g s b →
    e.start + e.len ≤ b ∨ b + headerSize ≤ e.start

/-- One step of a pass. -/
inductive Act (cfg : Config) : Hand → State → Hand → State → Prop
  /-- Nothing that counts here. -/
  | idle {g : Hand} {s s' : State} (unseen : Unseen s s') : Act cfg g s g s'
  /-- A whole normal list is taken off. -/
  | take {g : Hand} {s : State} {p : Nat × Nat} {l : List Nat}
      (free : g.held = []) (shard : p ∈ shards cfg)
      (list : OnList s (.mail p.1 p.2) l) :
      Act cfg g s ⟨p, l, []⟩ (s.setList (.mail p.1 p.2) 0)
  /-- A block in the hand gets another link. -/
  | link {g : Hand} {s : State} {h : Nat} (next : Nat) (mem : h ∈ g.held) :
      Act cfg g s g (s.onGround (Header.setNext h next))
  /-- `madvise` succeeds for pages of a block in the hand. -/
  | advise {g : Hand} {s : State} {e : Advice} (keep : Nat → Bool)
      (mem : e.block ∈ g.held) (range : InPayload g.shard.2 e)
      (clear : ClearOfHeaders cfg g s e) (ok : e.ok = true) :
      Act cfg g s { g with given := e.block :: g.given }
        ((s.advise e).onGround (Ground.discard keep e.start e.len))
  /-- It fails. -/
  | refuse {g : Hand} {s : State} {e : Advice} (mem : e.block ∈ g.held)
      (range : InPayload g.shard.2 e) (clear : ClearOfHeaders cfg g s e)
      (ok : e.ok = false) : Act cfg g s g (s.advise e)
  /-- A block whose pages are gone gets `TRIMMED_FLAG`. -/
  | mark {g : Hand} {s : State} {h : Nat} (mem : h ∈ g.held)
      (given : h ∈ g.given) :
      Act cfg g s g (s.onGround (Header.setFlags h 3))
  /-- A block in the hand gets another time stamp. -/
  | stamp {g : Hand} {s : State} {h : Nat} (time : Nat) (mem : h ∈ g.held) :
      Act cfg g s g (s.onGround (Header.setLifeTime h time))
  /-- Blocks whose pages are there go back to the normal list. -/
  | put {g : Hand} {s : State} {head tail : Nat} {c rest : List Nat}
      (chain : Delimits s.ground.mem head tail c)
      (small : c.length ≤ trimRepushBatch)
      (held : g.held.Perm (c ++ rest)) (kept : ∀ h ∈ c, h ∉ g.given) :
      Act cfg g s (g.left rest)
        (pushChain (.mail g.shard.1 g.shard.2) head tail s).2
  /-- A block whose pages are gone goes to the trimmed list. -/
  | putTrimmed {g : Hand} {s : State} {h : Nat} {rest : List Nat}
      (held : g.held.Perm (h :: rest)) (given : h ∈ g.given)
      (flag : Header.flags s.ground.mem h = 3) :
      Act cfg g s ⟨g.shard, rest, g.given.erase h⟩
        (pushChain (.trimmed g.shard.1 g.shard.2) h h s).2

/-- What a step of a pass leaves alone. -/
structure Spares (g : Hand) (s s' : State) : Prop where
  /-- bytes outside the blocks in the hand -/
  foreign : Mem.OnlyAt g.held (blockBytes g.shard.2) s.ground.mem
    s'.ground.mem
  /-- the other fields of their headers -/
  fields : ∀ h ∈ g.held,
    Header.cls s'.ground.mem h = Header.cls s.ground.mem h
      ∧ Header.magic s'.ground.mem h = Header.magic s.ground.mem h

/-- A step of the machine that spares what it has to. -/
structure Moves (cfg : Config) (g : Hand) (s : State) (g' : Hand)
    (s' : State) : Prop where
  act : Act cfg g s g' s'
  spares : Spares g s s'

-- ======================================================= untouched blocks

namespace Untouched

variable {class_ : Nat} {l l' : List Nat} {m m' m'' : Mem}

theorem refl (class_ : Nat) (l : List Nat) (m : Mem) :
    Untouched class_ l m m := fun _ _ _ _ _ => rfl

section Reads

variable (h : Untouched class_ l m m')
include h

theorem trans (h' : Untouched class_ l m' m'') : Untouched class_ l m m'' :=
  fun b hb x h₁ h₂ => (h' b hb x h₁ h₂).trans (h b hb x h₁ h₂)

theorem sub (hs : l' ⊆ l) :
    Untouched class_ l' m m' := fun b hb => h b (hs hb)

theorem load {b a w : Nat} (hb : b ∈ l) (h₁ : b ≤ a)
    (h₂ : a + w ≤ b + blockBytes class_) : Mem.load w m' a = Mem.load w m a :=
  Mem.load_congr fun x hx₁ hx₂ => h b hb x (by omega) (by omega)

theorem next {b : Nat} (hb : b ∈ l) : Header.next m' b = Header.next m b := by
  refine h.load hb (le_refl _) ?_
  simp only [blockBytes, headerSize]
  omega

theorem flags {b : Nat} (hb : b ∈ l) :
    Header.flags m' b = Header.flags m b := by
  refine h.load hb (Nat.le_add_right ..) ?_
  simp only [blockBytes, headerSize]
  omega

theorem seg {p q : Nat} {bs : List Nat} (hs : bs ⊆ l)
    (hseg : LinkedSeg (Header.next m) p bs q) :
    LinkedSeg (Header.next m') p bs q :=
  hseg.congr fun _ hb => h.next (hs hb)

end Reads

/-- A write inside one block leaves the others alone. -/
theorem of_only {a : Nat} (hrow : BlockRow class_ (a :: l))
    (hm : Mem.Only a (blockBytes class_) m m') : Untouched class_ l m m' := by
  intro b hb x h₁ h₂
  refine hm x fun hin => ?_
  have hne : b ≠ a := fun h => (List.nodup_cons.1 hrow.nodup).1 (h ▸ hb)
  have := hrow.apart b (List.mem_cons_of_mem _ hb) a
    (List.mem_cons_self ..) hne
  omega

end Untouched

-- ================================================================ chains

variable {c : List Nat}

theorem Delimits.tail_mem {m : Mem} {head tail : Nat}
    (h : Delimits m head tail c) : tail ∈ c := by
  obtain ⟨c', rfl, -⟩ := h
  simp

variable {l : List Nat}

/-- The tail of a chain and the blocks beside it. -/
theorem Delimits.subperm {m : Mem} {head tail : Nat} {rest : List Nat}
    (h : Delimits m head tail c) (hl : l.Perm (c ++ rest)) :
    (tail :: rest).Subperm l := by
  obtain ⟨c', rfl, -⟩ := h
  refine List.Subperm.trans (List.Sublist.subperm ?_) hl.symm.subperm
  rw [List.append_assoc]
  exact List.sublist_append_right ..

variable {class_ : Nat}

theorem Delimits.untouched {head tail : Nat} {m m' : Mem}
    (h : Delimits m head tail c) (hu : Untouched class_ l m m') (hs : c ⊆ l) :
    Delimits m' head tail c := by
  obtain ⟨c', rfl, hseg⟩ := h
  exact ⟨c', rfl, hu.seg (fun b hb => hs (List.mem_append_left _ hb)) hseg⟩

/-- A chain put in front of a list makes a longer list. -/
theorem Delimits.pushed {head tail old : Nat} {g : Ground}
    (h : Delimits g.mem head tail c) (hrow : BlockRow class_ (c ++ l))
    (hl : LinkedSeg (Header.next g.mem) old l 0) :
    LinkedSeg (Header.next (Header.setNext tail old g).mem) head (c ++ l)
      0 := by
  obtain ⟨c', rfl, hseg⟩ := h
  have hin : tail ∈ c' ++ [tail] ++ l := by simp
  have hnd := List.nodup_append.1 hrow.nodup
  have hout : tail ∉ l := fun h =>
    hnd.2.2 tail (by simp) tail h rfl
  have hout' : tail ∉ c' := fun h =>
    (List.nodup_append.1 hnd.1).2.2 tail h tail (by simp) rfl
  refine LinkedSeg.append_iff.2 ⟨old, LinkedSeg.append_iff.2
    ⟨tail, ?_, rfl, ?_⟩, ?_⟩
  · exact hrow.setNext_seg hin (fun b hb => by simp [hb]) hout' hseg
  · exact Header.next_setNext
      (hrow.head_lt (fun b hb => List.mem_append_right _ hb) hl)
  · exact hrow.setNext_seg hin (fun b hb => by simp [hb]) hout hl

theorem only_block {h : Nat} {m m' : Mem} (hm : Mem.Only h 16 m m') :
    Mem.Only h (blockBytes class_) m m' := by
  refine hm.mono (le_refl _) ?_
  simp only [blockBytes, headerSize]
  omega

/-- A write of 16 bytes to a block in the hand stays in the hand. -/
theorem onlyAt_block {h : Nat} {m m' : Mem} (hh : h ∈ l)
    (hm : Mem.Only h 16 m m') : Mem.OnlyAt l (blockBytes class_) m m' :=
  .of_only (only_block hm) hh (le_refl _) (le_refl _)

/-- Pages inside the payload of a block. -/
theorem InPayload.only {e : Advice} (he : InPayload class_ e)
    (keep : Nat → Bool) (g : Ground) :
    Mem.Only (e.block + 16) (sizeClass class_) g.mem
      (g.discard keep e.start e.len).mem :=
  (Ground.only_discard keep _ _ g).mono he.above he.below

theorem mail_ne {p q : Nat × Nat} (h : q ≠ p) :
    Shelf.mail q.1 q.2 ≠ .mail p.1 p.2 := by
  intro heq
  injection heq with h₁ h₂
  exact h (Prod.ext h₁ h₂)

variable {s : State}

theorem OnList.setList {k k' : Shelf} {v : Nat} (h : OnList s k l)
    (hne : k ≠ k') : OnList (s.setList k' v) k l := by
  refine ⟨?_, h.2⟩
  show LinkedSeg _ (Function.update s.list _ _ _) _ _
  rw [Function.update_of_ne hne]
  exact h.1

-- ============================================================== in order

namespace OrderlyWith

variable {contents contents' : Nat × Nat → List Nat} {g g' : Hand}
  {s s' : State} {p : Nat × Nat} (h : OrderlyWith cfg fuel contents g s)
include h

/-- The blocks of one CPU and class. -/
theorem row (hp : p ∈ shards cfg) :
    BlockRow p.2 (g.of p ++ contents p) := h.laid.row p hp

/-- The blocks in the hand do not overlap. -/
theorem heldRow : BlockRow g.shard.2 g.held := by
  by_cases hnil : g.held = []
  · rw [hnil]
    exact ⟨List.nodup_nil, nofun,
      nofun⟩
  · have hrow := h.row (h.shard hnil)
    rw [g.of_shard] at hrow
    exact hrow.sub (List.nodup_append.1 hrow.nodup).1
      fun b hb => List.mem_append_left _ hb

theorem held_length (hne : g.held ≠ []) : g.held.length < fuel := by
  have := h.short _ (h.shard hne)
  rw [g.of_shard, List.length_append] at this
  omega

/-- A block on a list does not overlap one in the hand. -/
theorem apart {a b : Nat} (ha : a ∈ g.held) (hp : p ∈ shards cfg)
    (hb : b ∈ contents p) :
    a + blockBytes g.shard.2 ≤ b ∨ b + blockBytes p.2 ≤ a := by
  have hsh := h.shard (List.ne_nil_of_mem ha)
  have ha' : a ∈ g.of g.shard ++ contents g.shard := by
    rw [g.of_shard]
    exact List.mem_append_left _ ha
  by_cases heq : p = g.shard
  · subst heq
    have hrow := h.row hp
    rw [g.of_shard] at hrow
    refine hrow.apart a (List.mem_append_left _ ha) b
      (List.mem_append_right _ hb) ?_
    exact (List.nodup_append.1 hrow.nodup).2.2 a ha b hb
  · exact h.laid.apart _ hsh p hp (Ne.symm heq) a ha' b
      (List.mem_append_right _ hb)

/-- Changes inside the blocks in the hand are not seen in the lists. -/
theorem keep (hm : Mem.OnlyAt g.held (blockBytes g.shard.2) s.ground.mem
      s'.ground.mem) (hlist : ∀ p ∈ shards cfg,
      s'.list (.mail p.1 p.2) = s.list (.mail p.1 p.2)) :
    OrderlyWith cfg fuel contents g s' where
  laid := h.laid
  lists p hp := by
    refine ⟨?_, (h.lists p hp).2⟩
    rw [hlist p hp]
    refine (h.lists p hp).1.congr fun b hb => hm.load fun a ha => ?_
    have := h.apart ha hp hb
    simp only [blockBytes, headerSize] at this ⊢
    omega
  short := h.short
  shard := h.shard
  real := h.real

/-- Blocks of one CPU and class move between the hand and the list, or
leave both. -/
theorem move (hof : ∀ q ≠ p, g'.of q = g.of q)
    (hsub : (g'.of p ++ l).Subperm (g.of p ++ contents p))
    (hlist : OnList s' (.mail p.1 p.2) l) (hother : ∀ q ∈ shards cfg, q ≠ p →
      OnList s' (.mail q.1 q.2) (contents q))
    (hshard : g'.held ≠ [] → g'.shard ∈ shards cfg) (hreal : 0 ∉ g'.held) :
    OrderlyWith cfg fuel (Function.update contents p l) g' s' := by
  have hall : ∀ q ∈ shards cfg, (g'.of q ++ Function.update contents p l q
      ).Subperm (g.of q ++ contents q) := by
    intro q _
    by_cases hq : q = p
    · subst hq
      rw [Function.update_self]
      exact hsub
    · rw [Function.update_of_ne hq, hof q hq]
  refine ⟨h.laid.sub hall, fun q hq => ?_, fun q hq => ?_, hshard, hreal⟩
  · by_cases hqp : q = p
    · subst hqp
      rw [Function.update_self]
      exact hlist
    · rw [Function.update_of_ne hqp]
      exact hother q hq hqp
  · exact lt_of_le_of_lt (hall q hq).length_le (h.short q hq)

theorem take (hp : p ∈ shards cfg) (hfree : g.held = []) :
    OrderlyWith cfg fuel (Function.update contents p [])
      ⟨p, contents p, []⟩ (s.setList (.mail p.1 p.2) 0) := by
  refine h.move (fun q hq => ?_) ?_ ?_ (fun q hq hqp => ?_) (fun _ => hp)
    (h.lists p hp).2
  · rw [Hand.of_nil hfree, Hand.of_ne hq]
  · rw [Hand.of_nil hfree, List.append_nil]
    exact (List.Perm.of_eq (if_pos rfl)).subperm
  · exact ⟨Function.update_self .., List.not_mem_nil⟩
  · exact (h.lists q hq).setList (mail_ne hqp)

/-- A chain of blocks in the hand goes back. -/
theorem put {head tail : Nat} {rest : List Nat}
    (hc : Delimits s.ground.mem head tail c) (hheld : g.held.Perm (c ++ rest)) :
    OrderlyWith cfg fuel
      (Function.update contents g.shard (c ++ contents g.shard))
      (g.left rest) (pushChain (.mail g.shard.1 g.shard.2) head tail s).2 := by
  have htail : tail ∈ g.held :=
    hheld.mem_iff.2 (List.mem_append_left _ hc.tail_mem)
  have hsh := h.shard (List.ne_nil_of_mem htail)
  have hrow := h.row hsh
  rw [g.of_shard] at hrow
  have hsub : (c ++ contents g.shard).Subperm
      (g.held ++ contents g.shard) := by
    refine List.Subperm.trans (List.Sublist.subperm ?_)
      (hheld.symm.append_right _).subperm
    exact (List.sublist_append_left c rest).append_right _
  -- the links of the lists, once the tail is linked
  have hmid : OrderlyWith cfg fuel contents g (s.onGround
      (Header.setNext tail (s.list (.mail g.shard.1 g.shard.2)))) :=
    h.keep (onlyAt_block htail Header.only_setNext) fun _ _ => rfl
  refine h.move (fun q hq => ?_) ?_ ⟨?_, fun h0 => ?_⟩
    (fun q hq hqp => ?_) (fun _ => hsh) fun h0 => ?_
  · rw [Hand.of_ne hq, Hand.of_ne (g := g.left rest) hq]
  · rw [g.of_shard, show (g.left rest).of g.shard = rest from if_pos rfl,
      ← List.append_assoc]
    exact ((List.perm_append_comm.trans hheld.symm).append_right _).subperm
  · show LinkedSeg _ (Function.update s.list _ _ _) _ _
    rw [Function.update_self]
    refine hc.pushed (hrow.sub ?_ fun b hb => hsub.subset hb)
      (h.lists _ hsh).1
    obtain ⟨l, hperm, hl⟩ := hsub
    exact hperm.nodup_iff.1 (hl.nodup hrow.nodup)
  · cases List.mem_append.1 h0 with
    | inl h0 => exact h.real (hheld.mem_iff.2 (List.mem_append_left _ h0))
    | inr h0 => exact (h.lists _ hsh).2 h0
  · exact (hmid.lists q hq).setList (mail_ne hqp)
  · exact h.real (hheld.mem_iff.2 (List.mem_append_right _ h0))

/-- A block leaves the hand for another list. -/
theorem drop {rest : List Nat} (hsub : rest.Subperm g.held)
    (hshard : g'.shard = g.shard) (hheld : g'.held = rest)
    (hlists : Filled contents (shards cfg) s') :
    OrderlyWith cfg fuel contents g' s' := by
  have hall : ∀ q ∈ shards cfg, (g'.of q ++ contents q).Subperm
      (g.of q ++ contents q) := by
    intro q _
    unfold Hand.of
    rw [hshard, hheld]
    split
    · exact (List.subperm_append_right _).2 hsub
    · exact List.Subperm.refl _
  refine ⟨h.laid.sub hall, hlists, fun q hq => ?_, fun hne => ?_, fun h0 => ?_⟩
  · exact lt_of_le_of_lt (hall q hq).length_le (h.short q hq)
  · rw [hshard]
    refine h.shard fun hnil => hne ?_
    rw [hheld]
    rw [hnil] at hsub
    exact List.subperm_nil.1 hsub
  · rw [hheld] at h0
    exact h.real (hsub.subset h0)

end OrderlyWith

-- ================================================ steps of the machine

namespace Act

variable {g g' : Hand} {s s' : State}

/-- Only blocks in the hand change. -/
theorem foreign (h : Act cfg g s g' s') :
    Mem.OnlyAt g.held (blockBytes g.shard.2) s.ground.mem s'.ground.mem := by
  cases h with
  | idle unseen =>
      obtain ⟨hint, words, ages, trimLock, rfl⟩ := unseen
      exact .refl _ _ _
  | take free shard list => exact .refl _ _ _
  | link next mem => exact onlyAt_block mem Header.only_setNext
  | advise keep mem range clear ok =>
      refine .of_only (range.only keep _) mem (by omega) ?_
      simp only [blockBytes, headerSize]
      omega
  | refuse mem range clear ok => exact .refl _ _ _
  | mark mem given => exact onlyAt_block mem Header.only_setFlags
  | stamp time mem => exact onlyAt_block mem Header.only_setLifeTime
  | put chain small held kept =>
      refine onlyAt_block (held.mem_iff.2 ?_) Header.only_setNext
      exact List.mem_append_left _ chain.tail_mem
  | putTrimmed held given flag =>
      exact onlyAt_block (held.mem_iff.2 (List.mem_cons_self ..))
        Header.only_setNext

/-- The lists and the hand stay in order. -/
theorem orderly (h : Act cfg g s g' s') (ho : Orderly cfg fuel g s) :
    Orderly cfg fuel g' s' := by
  obtain ⟨contents, ho⟩ := ho
  have hforeign := h.foreign
  cases h with
  | idle unseen =>
      obtain ⟨hint, words, ages, trimLock, rfl⟩ := unseen
      exact ⟨contents, ho.keep hforeign fun _ _ => rfl⟩
  | @take p l free shard list =>
      have hl : l = contents p :=
        list.1.unique (ho.lists p shard).1 list.2 (ho.lists p shard).2
      rw [hl]
      exact ⟨_, ho.take shard free⟩
  | link next mem => exact ⟨contents, ho.keep hforeign fun _ _ => rfl⟩
  | advise keep mem range clear ok =>
      exact ⟨contents, (ho.keep hforeign fun _ _ => rfl).drop
        (List.Subperm.refl _) rfl rfl
        (ho.keep hforeign fun _ _ => rfl).lists⟩
  | refuse mem range clear ok =>
      exact ⟨contents, ho.keep hforeign fun _ _ => rfl⟩
  | mark mem given => exact ⟨contents, ho.keep hforeign fun _ _ => rfl⟩
  | stamp time mem => exact ⟨contents, ho.keep hforeign fun _ _ => rfl⟩
  | put chain small held kept => exact ⟨_, ho.put chain held⟩
  | @putTrimmed h rest held given flag =>
      have hne : ∀ p : Nat × Nat, Shelf.mail p.1 p.2
          ≠ .trimmed g.shard.1 g.shard.2 := fun _ => Shelf.noConfusion
      have hmid := ho.keep hforeign fun p _ =>
        Function.update_of_ne (hne p) h s.list
      refine ⟨contents, ho.drop ?_ rfl rfl hmid.lists⟩
      exact (List.sublist_cons_self _ _).subperm.trans held.symm.subperm

/-- Writes beside the class and the magic number of a block in the hand
leave those of all blocks in the hand alone. -/
theorem fields_of_only {a b n : Nat} {m m' : Mem} (hrow : BlockRow class_ l)
    (ha : a ∈ l) (hm : Mem.Only b n m m') (h₁ : a ≤ b)
    (h₂ : b + n ≤ a + blockBytes class_) (h₃ : b + n ≤ a + 9 ∨ a + 12 ≤ b)
    {h : Nat} (hh : h ∈ l) :
    Header.cls m' h = Header.cls m h
      ∧ Header.magic m' h = Header.magic m h := by
  have hd : b + n ≤ h + 9 ∨ h + 12 ≤ b := by
    by_cases heq : h = a
    · omega
    · have := hrow.apart h hh a ha heq
      simp only [blockBytes, headerSize] at this h₂
      omega
  exact ⟨hm.load (by omega), hm.load (by omega)⟩

/-- What a step leaves alone. -/
theorem spares (h : Act cfg g s g' s') (ho : Orderly cfg fuel g s) :
    Spares g s s' := by
  obtain ⟨contents, ho⟩ := ho
  refine ⟨h.foreign, fun b hb => ?_⟩
  have hrow := ho.heldRow
  have hbytes : 16 ≤ blockBytes g.shard.2 := by
    simp only [blockBytes, headerSize]
    omega
  have hlink : ∀ {a v : Nat}, a ∈ g.held →
      Header.cls (Header.setNext a v s.ground).mem b
          = Header.cls s.ground.mem b
        ∧ Header.magic (Header.setNext a v s.ground).mem b
          = Header.magic s.ground.mem b := fun {a v} ha =>
    fields_of_only hrow ha (Mem.Only.store (le_refl _) (le_refl _))
      (le_refl _) (by omega) (by omega) hb
  cases h with
  | idle unseen =>
      obtain ⟨hint, words, ages, trimLock, rfl⟩ := unseen
      exact ⟨rfl, rfl⟩
  | take free shard list => exact ⟨rfl, rfl⟩
  | link next mem => exact hlink mem
  | advise keep mem range clear ok =>
      refine fields_of_only hrow mem (range.only keep _) (by omega) ?_
        (by omega) hb
      simp only [blockBytes, headerSize]
      omega
  | refuse mem range clear ok => exact ⟨rfl, rfl⟩
  | @mark a mem given =>
      exact fields_of_only hrow mem
        (Mem.Only.store (a := a + 8) (n := 1) (le_refl _) (le_refl _))
        (by omega) (by omega) (by omega) hb
  | @stamp a time mem =>
      exact fields_of_only hrow mem
        (Mem.Only.store (a := a + 12) (n := 4) (le_refl _) (le_refl _))
        (by omega) (by omega) (by omega) hb
  | put chain small held kept =>
      exact hlink (held.mem_iff.2 (List.mem_append_left _ chain.tail_mem))
  | putTrimmed held given flag =>
      exact hlink (held.mem_iff.2 (List.mem_cons_self ..))

end Act

-- ====================================================== rules for programs

section Rules

variable {α β : Type} {g : Hand} {s : State} {Q : α → Hand → State → Prop}
  {f : Env → State → α × State}

/-- One step of the program, which is one of the machine. -/
theorem amid_atomic (h : Orderly cfg fuel g s)
    (hf : ∀ i s₁, Orderly cfg fuel g s₁ →
      Untouched g.shard.2 g.held s.ground.mem s₁.ground.mem →
      ∃ g', Act cfg g s₁ g' (f i s₁).2
        ∧ (Orderly cfg fuel g' (f i s₁).2 →
          Q (f i s₁).1 g' (f i s₁).2)) :
    Amid (Leaves cfg fuel) (Moves cfg) (Prog.atomic f) Q g s := by
  refine Amid.atomic fun i s₁ hl => ?_
  have ho := hl.orderly h
  obtain ⟨g', hact, hQ⟩ := hf i s₁ ho hl.untouched
  exact ⟨g', ⟨hact, hact.spares ho⟩, hQ (hact.orderly ho)⟩

theorem amid_idle (h : Orderly cfg fuel g s) (hf : ∀ i s₁, Unseen s₁ (f i s₁).2)
    (hQ : ∀ i s₁, Orderly cfg fuel g (f i s₁).2 →
      Untouched g.shard.2 g.held s.ground.mem s₁.ground.mem →
      Q (f i s₁).1 g (f i s₁).2) :
    Amid (Leaves cfg fuel) (Moves cfg) (Prog.atomic f) Q g s :=
  amid_atomic h fun i s₁ _ hu =>
    ⟨g, .idle (hf i s₁), fun ho => hQ i s₁ ho hu⟩

theorem Unseen.refl (s : State) : Unseen s s := ⟨_, _, _, _, rfl⟩

theorem amid_read {f : State → α} (h : Orderly cfg fuel g s)
    (hQ : ∀ s₁, Orderly cfg fuel g s₁ →
      Untouched g.shard.2 g.held s.ground.mem s₁.ground.mem →
      Q (f s₁) g s₁) :
    Amid (Leaves cfg fuel) (Moves cfg) (Prog.read f : SlabM α) Q g s :=
  amid_idle h (fun _ s₁ => .refl s₁) fun _ => hQ

/-- The hint bits are not the machine's concern. -/
theorem markClassNonempty_amid {cpu : Nat} (h : Orderly cfg fuel g s) :
    Amid (Leaves cfg fuel) (Moves cfg) (markClassNonempty cfg class_ cpu)
      (fun _ g' s' => g' = g ∧ Orderly cfg fuel g s'
        ∧ Untouched g.shard.2 g.held s.ground.mem s'.ground.mem) g s := by
  apply Amid.bind
  refine amid_idle h (fun _ s₁ => ⟨_, _, _, _, rfl⟩) fun _ s₁ ho₁ hu₁ => ?_
  refine Amid.when (fun _ => ?_) fun _ => ⟨rfl, ho₁, hu₁⟩
  exact amid_idle ho₁ (fun _ s₂ => ⟨_, _, _, _, rfl⟩)
    fun _ s₂ ho₂ hu₂ => ⟨rfl, ho₂, hu₁.trans hu₂⟩

/-- A push is one step of the machine; what stays in the hand is not
touched. -/
theorem transferPush_amid {k : Shelf} {start tail cpu : Nat} (g' : Hand)
    (h : Orderly cfg fuel g s)
    (hact : ∀ s₁, Untouched g.shard.2 g.held s.ground.mem s₁.ground.mem →
      Act cfg g s₁ g' (pushChain k start tail s₁).2)
    (hshard : g'.shard = g.shard) (hheld : (tail :: g'.held).Subperm g.held) :
    Amid (Leaves cfg fuel) (Moves cfg)
      (transferPush cfg k class_ start tail cpu)
      (fun _ g₁ s' => g₁ = g' ∧ Orderly cfg fuel g' s'
        ∧ Untouched g.shard.2 g'.held s.ground.mem s'.ground.mem) g s := by
  apply Amid.bind
  refine amid_atomic h fun i s₁ ho₁ hu₁ => ⟨g', hact s₁ hu₁, fun ho₂ => ?_⟩
  have hrow : BlockRow g.shard.2 (tail :: g'.held) := by
    obtain ⟨contents, ho⟩ := ho₁
    refine ho.heldRow.sub ?_ fun b hb => hheld.subset hb
    obtain ⟨l, hperm, hl⟩ := hheld
    exact hperm.nodup_iff.1 (hl.nodup ho.heldRow.nodup)
  -- the link of the tail is outside the blocks that stay
  have hu₂ : Untouched g.shard.2 g'.held s.ground.mem
      (pushChain k start tail s₁).2.ground.mem :=
    (hu₁.sub fun b hb => hheld.subset (List.mem_cons_of_mem _ hb)).trans
      (.of_only hrow (only_block Header.only_setNext))
  refine Amid.when (fun _ => ?_) fun _ => ⟨rfl, ho₂, hu₂⟩
  refine (markClassNonempty_amid ho₂).mono fun _ g₁ s₃ hpost => ?_
  obtain ⟨hg, ho₃, hu₃⟩ := hpost
  rw [hshard] at hu₃
  exact ⟨hg, ho₃, hu₂.trans hu₃⟩

end Rules

-- =============================================================== sorting

/-- The first loop of `trim_small` is at `next`: the blocks of `r` are
ahead, those of `t` wait to be given back and those of `c` to be put
back. -/
structure SortingOut (cfg : Config) (fuel cpu class_ next : Nat)
    (r t c : List Nat) (w : Sorted) (g : Hand) (s : State) : Prop where
  orderly : Orderly cfg fuel g s
  shard : g.shard = (cpu, class_)
  held : g.held.Perm (r ++ (t ++ c))
  given : g.given = []
  ahead : LinkedSeg (Header.next s.ground.mem) next r 0
  waiting : LinkedSeg (Header.next s.ground.mem) w.trimList t 0
  chain : LinkedSeg (Header.next s.ground.mem) w.pushList c 0
  count : w.totalPush = c.length
  last : c ≠ [] → c.getLast? = some w.pushListStart

namespace SortingOut

variable {cpu class_ next : Nat} {r t c : List Nat} {w : Sorted} {g : Hand}
  {s s' : State}

/-- What others do is not seen. -/
theorem others (h : SortingOut cfg fuel cpu class_ next r t c w g s)
    (ho : Orderly cfg fuel g s')
    (hu : Untouched g.shard.2 g.held s.ground.mem s'.ground.mem) :
    SortingOut cfg fuel cpu class_ next r t c w g s' where
  orderly := ho
  shard := h.shard
  held := h.held
  given := h.given
  ahead := hu.seg (fun b hb => h.held.mem_iff.2 (by simp [hb])) h.ahead
  waiting := hu.seg (fun b hb => h.held.mem_iff.2 (by simp [hb])) h.waiting
  chain := hu.seg (fun b hb => h.held.mem_iff.2 (by simp [hb])) h.chain
  count := h.count
  last := h.last

theorem row (h : SortingOut cfg fuel cpu class_ next r t c w g s) :
    BlockRow class_ (r ++ (t ++ c)) := by
  obtain ⟨contents, ho⟩ := h.orderly
  have hrow := ho.heldRow
  rw [h.shard] at hrow
  exact hrow.sub (h.held.nodup_iff.1 hrow.nodup)
    fun b hb => h.held.mem_iff.2 hb

/-- The block at `next` gets another link. -/
theorem relink {b v : Nat}
    (h : SortingOut cfg fuel cpu class_ b (b :: r) t c w g s) :
    let m := (Header.setNext b v s.ground).mem
    LinkedSeg (Header.next m) (Header.next s.ground.mem b) r 0
      ∧ LinkedSeg (Header.next m) w.trimList t 0
      ∧ LinkedSeg (Header.next m) w.pushList c 0 := by
  have hrow := h.row
  have hout : b ∉ r ++ (t ++ c) := (List.nodup_cons.1 hrow.nodup).1
  have hseg : ∀ {p : Nat} {l : List Nat}, l ⊆ r ++ (t ++ c) →
      LinkedSeg (Header.next s.ground.mem) p l 0 →
      LinkedSeg (Header.next (Header.setNext b v s.ground).mem) p l 0 :=
    fun hl => hrow.setNext_seg (List.mem_cons_self ..)
      (fun a ha => List.mem_cons_of_mem _ (hl ha)) fun hb => hout (hl hb)
  exact ⟨hseg (fun a ha => by simp [ha]) h.ahead.2,
    hseg (fun a ha => by simp [ha]) h.waiting,
    hseg (fun a ha => by simp [ha]) h.chain⟩

/-- The block at `next` goes to the blocks to be given back. -/
theorem wait {b : Nat}
    (h : SortingOut cfg fuel cpu class_ b (b :: r) t c w g s)
    (ho : Orderly cfg fuel g (s.onGround (Header.setNext b w.trimList))) :
    SortingOut cfg fuel cpu class_ (Header.next s.ground.mem b) r (b :: t) c
      { w with trimList := b } g
      (s.onGround (Header.setNext b w.trimList)) := by
  obtain ⟨hr, ht, hc⟩ := h.relink (v := w.trimList)
  have hnext : Header.next (Header.setNext b w.trimList s.ground).mem b
      = w.trimList :=
    Header.next_setNext (h.row.head_lt (fun a ha => by simp [ha]) h.waiting)
  refine ⟨ho, h.shard, h.held.trans List.perm_middle.symm, h.given, hr,
    ⟨rfl, ?_⟩, hc, h.count, h.last⟩
  show LinkedSeg _ (Header.next (Header.setNext b w.trimList s.ground).mem b)
    t 0
  rw [hnext]
  exact ht

/-- The block at `next` goes to the blocks to be put back. -/
theorem queue {b : Nat}
    (h : SortingOut cfg fuel cpu class_ b (b :: r) t c w g s)
    (ho : Orderly cfg fuel g (s.onGround (Header.setNext b w.pushList))) :
    SortingOut cfg fuel cpu class_ (Header.next s.ground.mem b) r t (b :: c)
      { w with
        pushList := b
        pushListStart := if w.totalPush = 0 then b else w.pushListStart
        totalPush := w.totalPush + 1 } g
      (s.onGround (Header.setNext b w.pushList)) := by
  obtain ⟨hr, ht, hc⟩ := h.relink (v := w.pushList)
  have hnext : Header.next (Header.setNext b w.pushList s.ground).mem b
      = w.pushList :=
    Header.next_setNext (h.row.head_lt (fun a ha => by simp [ha]) h.chain)
  refine ⟨ho, h.shard, h.held.trans ?_, h.given, hr, ht, ⟨rfl, ?_⟩, ?_,
    fun _ => ?_⟩
  · rw [← List.append_assoc, ← List.append_assoc]
    exact List.perm_middle.symm
  · show LinkedSeg _ (Header.next (Header.setNext b w.pushList s.ground).mem
      b) c 0
    rw [hnext]
    exact hc
  · rw [List.length_cons, h.count]
  · cases c with
    | nil =>
        have hz : w.totalPush = 0 := h.count
        rw [hz]
        rfl
    | cons a c =>
        have hz : w.totalPush ≠ 0 := by
          rw [h.count, List.length_cons]
          omega
        rw [if_neg hz, List.getLast?_cons_cons]
        exact h.last (List.cons_ne_nil _ _)

/-- A chain with a last block is delimited by its ends. -/
theorem delimits (h : SortingOut cfg fuel cpu class_ next r t c w g s)
    (hne : c ≠ []) :
    Delimits s.ground.mem w.pushList w.pushListStart c := by
  obtain ⟨c', hc⟩ := List.getLast?_eq_some_iff.1 (h.last hne)
  have hseg := h.chain
  rw [hc] at hseg
  obtain ⟨m, h₁, h₂, -⟩ := LinkedSeg.append_iff.1 hseg
  rw [h₂] at h₁
  exact ⟨c', hc, h₁⟩

end SortingOut

variable {g : Hand}

/-- The blocks to be put back are put back. -/
theorem SortingOut.flush {cpu next : Nat} {r t : List Nat} {w : Sorted}
    (h : SortingOut cfg fuel cpu class_ next r t c w g s) (hne : c ≠ [])
    (hsmall : c.length ≤ trimRepushBatch) :
    Amid (Leaves cfg fuel) (Moves cfg)
      (transferPushBatch cfg class_ w.pushList w.pushListStart cpu)
      (fun _ g' s' => SortingOut cfg fuel cpu class_ next r t []
        { w with pushList := 0, pushListStart := 0, totalPush := 0 } g' s')
      g s := by
  have hperm : g.held.Perm (c ++ (r ++ t)) := by
    refine h.held.trans ?_
    rw [← List.append_assoc]
    exact List.perm_append_comm
  have hshelf : Shelf.mail cpu class_ = .mail g.shard.1 g.shard.2 := by
    rw [h.shard]
  have htail := (h.delimits hne).tail_mem
  unfold transferPushBatch
  rw [hshelf]
  refine (transferPush_amid (g.left (r ++ t)) h.orderly
    (fun s₁ hu => ?_) rfl ((h.delimits hne).subperm hperm)).mono
    fun _ g' s' hpost => ?_
  · refine .put ((h.delimits hne).untouched hu fun b hb => ?_) hsmall hperm
      fun _ _ => ?_
    · exact hperm.mem_iff.2 (List.mem_append_left _ hb)
    · rw [h.given]
      exact List.not_mem_nil
  · obtain ⟨rfl, ho, hu⟩ := hpost
    refine ⟨ho, h.shard, ?_, h.given,
      hu.seg (List.subset_append_left _ _) h.ahead,
      hu.seg (List.subset_append_right _ _) h.waiting, rfl, rfl,
      fun hn => absurd rfl hn⟩
    rw [List.append_nil]
    exact .refl _

/-- The first loop of `trim_small` sorts the list out; a chain is put
back as soon as it has sixteen blocks. -/
theorem sortList_amid {cpu stamp age : Nat} (n : Nat) {next : Nat}
    {r t : List Nat} {w : Sorted} (hn : r.length < n)
    (hsmall : c.length < trimRepushBatch)
    (h : SortingOut cfg fuel cpu class_ next r t c w g s) :
    Amid (Leaves cfg fuel) (Moves cfg)
      (sortList cfg class_ cpu stamp age n next w)
      (fun w' g' s' => ∃ t' c', c'.length < trimRepushBatch
        ∧ SortingOut cfg fuel cpu class_ 0 [] t' c' w' g' s') g s := by
  induction n generalizing next r t c w g s with
  | zero => omega
  | succ n ih =>
      rw [sortList]
      cases r with
      | nil =>
          have hz : next = 0 := h.ahead
          subst hz
          rw [if_pos rfl]
          exact Amid.ret ⟨t, c, hsmall, h⟩
      | cons b r =>
          obtain rfl : next = b := h.ahead.1
          obtain ⟨contents, ho⟩ := h.orderly
          have hne : next ≠ 0 := fun hz =>
            ho.real (h.held.mem_iff.2 (hz ▸ List.mem_cons_self ..))
          rw [if_neg hne]
          rw [List.length_cons] at hn
          apply Amid.bind
          refine amid_read h.orderly fun s₁ ho₁ hu₁ => ?_
          have h₁ := h.others ho₁ hu₁
          have hin : next ∈ g.held :=
            h.held.mem_iff.2 (List.mem_cons_self ..)
          -- the link that was read is still there
          have hnext : ∀ s₂ : State, Untouched g.shard.2 g.held
              s₁.ground.mem s₂.ground.mem →
              Header.next s₁.ground.mem next
                = Header.next s₂.ground.mem next := fun s₂ hu =>
            (hu.next hin).symm
          dsimp only
          split
          · apply Amid.bind
            refine amid_atomic ho₁ fun _ s₂ ho₂ hu₂ =>
              ⟨g, .link _ hin, fun ho₃ => ?_⟩
            rw [hnext s₂ hu₂]
            exact ih (by omega) hsmall ((h₁.others ho₂ hu₂).wait ho₃)
          · apply Amid.bind
            refine amid_atomic ho₁ fun _ s₂ ho₂ hu₂ =>
              ⟨g, .link _ hin, fun ho₃ => ?_⟩
            rw [hnext s₂ hu₂]
            have h₃ := (h₁.others ho₂ hu₂).queue ho₃
            split
            · next hfull =>
              rw [h.count] at hfull
              refine (h₃.flush (List.cons_ne_nil _ _) ?_).seq
                fun _ g' s' h₄ => ih (by omega) (by decide) h₄
              rw [List.length_cons, hfull]
            · next hroom =>
              rw [h.count] at hroom
              refine ih (by omega) ?_ h₃
              rw [List.length_cons]
              omega

-- ============================================================ giving back

/-- The second loop of `trim_small` is at `trimList`, with the blocks of
`t` in the hand. -/
structure Releasing (cfg : Config) (fuel cpu class_ trimList : Nat)
    (t : List Nat) (g : Hand) (s : State) : Prop where
  orderly : Orderly cfg fuel g s
  shard : g.shard = (cpu, class_)
  held : g.held.Perm t
  given : g.given = []
  waiting : LinkedSeg (Header.next s.ground.mem) trimList t 0

/-- Once the last chain is put back only the blocks to be given back are
in the hand. -/
theorem SortingOut.releasing {cpu : Nat} {t : List Nat} {w : Sorted}
    (h : SortingOut cfg fuel cpu class_ 0 [] t [] w g s) :
    Releasing cfg fuel cpu class_ w.trimList t g s where
  orderly := h.orderly
  shard := h.shard
  held := by
    have hheld := h.held
    rw [List.nil_append, List.append_nil] at hheld
    exact hheld
  given := h.given
  waiting := h.waiting

/-- The hand once it is decided whether the pages of a block go. -/
def Hand.decided (g : Hand) (h : Nat) (didTrim : Bool) : Hand :=
  if didTrim then { g with given := [h] } else g

theorem Hand.decided_held (g : Hand) (h : Nat) (didTrim : Bool) :
    (g.decided h didTrim).held = g.held := by
  cases didTrim with
  | false => rfl
  | true => rfl

theorem Hand.decided_shard (g : Hand) (h : Nat) (didTrim : Bool) :
    (g.decided h didTrim).shard = g.shard := by
  cases didTrim with
  | false => rfl
  | true => rfl

/-- The range of `release_memory` is inside the payload of the block. -/
theorem inPayload_of_hasPage {header : Nat} (ok : Bool)
    (h : HasPage header (sizeClass class_)) :
    InPayload class_ ⟨header, sizeClass class_, pagesFrom header,
      pagesTo header (sizeClass class_) - pagesFrom header, ok⟩ where
  size := rfl
  start_aligned := Nat.dvd_mul_left ..
  len_aligned := Nat.dvd_sub (Nat.dvd_mul_left ..) (Nat.dvd_mul_left ..)
  nonempty := Nat.sub_pos_of_lt h
  above := by
    simp only [pagesFrom, headerSize, pageSize]
    omega
  below := by
    show pagesFrom header
      + (pagesTo header (sizeClass class_) - pagesFrom header) ≤ _
    rw [Nat.add_sub_cancel' (Nat.le_of_lt h)]
    exact Nat.div_mul_le_self ..

/-- A range inside the payload of a block in the hand covers no
header. -/
theorem InPayload.clear {e : Advice} (he : InPayload class_ e)
    (ho : Orderly cfg fuel g s) (hshard : g.shard.2 = class_)
    (hin : e.block ∈ g.held) : ClearOfHeaders cfg g s e := by
  obtain ⟨contents, ho⟩ := ho
  have habove := he.above
  have hbelow := he.below
  intro b hb
  cases hb with
  | inl hheld =>
      by_cases heq : b = e.block
      · subst heq
        exact Or.inr habove
      · have := ho.heldRow.apart b hheld _ hin heq
        rw [hshard] at this
        simp only [blockBytes, headerSize] at this habove hbelow ⊢
        omega
  | inr hlisted =>
      obtain ⟨p, hp, l, hl, hbl⟩ := hlisted
      have heq : l = contents p :=
        hl.1.unique (ho.lists p hp).1 hl.2 (ho.lists p hp).2
      rw [heq] at hbl
      have := ho.apart hin hp hbl
      rw [hshard] at this
      simp only [blockBytes, headerSize] at this habove hbelow ⊢
      omega

/-- `release_memory` gives back pages of the block, or does nothing. -/
theorem releaseMemory_amid {h : Nat} {rest : List Nat}
    (ho : Orderly cfg fuel g s) (hshard : g.shard.2 = class_)
    (hheld : g.held.Perm (h :: rest)) (hgiven : g.given = []) :
    Amid (Leaves cfg fuel) (Moves cfg) (releaseMemory h (sizeClass class_))
      (fun didTrim g' s' => g' = g.decided h didTrim
        ∧ Orderly cfg fuel g' s'
        ∧ Untouched class_ rest s.ground.mem s'.ground.mem) g s := by
  unfold releaseMemory
  dsimp only
  split
  · exact Amid.ret ⟨rfl, ho, .refl _ _ _⟩
  · next hlt =>
    have hpage : HasPage h (sizeClass class_) := Nat.not_le.1 hlt
    have hin : h ∈ g.held := hheld.mem_iff.2 (List.mem_cons_self ..)
    refine amid_atomic ho fun i s₁ ho₁ hu₁ => ?_
    have hrange := inPayload_of_hasPage i.ok hpage
    have hclear := hrange.clear ho₁ hshard hin
    have hrest : Untouched class_ rest s.ground.mem s₁.ground.mem := by
      rw [hshard] at hu₁
      exact hu₁.sub fun b hb => hheld.mem_iff.2 (List.mem_cons_of_mem _ hb)
    subst hshard
    split
    · next hok =>
      refine ⟨g.decided h true, ?_, fun ho₂ => ⟨rfl, ho₂, ?_⟩⟩
      · have hact : Act cfg g s₁ _ _ := .advise i.keep hin hrange hclear hok
        rw [hgiven] at hact
        exact hact
      · obtain ⟨contents, ho₁⟩ := ho₁
        have hrow : BlockRow g.shard.2 (h :: rest) := ho₁.heldRow.sub
          (hheld.nodup_iff.1 ho₁.heldRow.nodup)
          fun b hb => hheld.mem_iff.2 hb
        have honly : Mem.Only (h + 16) (sizeClass g.shard.2) _ _ :=
          hrange.only i.keep s₁.ground
        refine hrest.trans (.of_only hrow (honly.mono ?_ ?_))
        · exact Nat.le_add_right ..
        · simp only [blockBytes, headerSize]
          omega
    · next hok =>
      rw [Bool.not_eq_true] at hok
      exact ⟨g, .refuse hin hrange hclear hok, fun ho₂ => ⟨rfl, ho₂, hrest⟩⟩

/-- The rest of the body of the second loop: the block is marked and put
back, on the list that its pages decide. -/
theorem putBack_amid {cpu h stamp : Nat} {rest : List Nat} {didTrim : Bool}
    {k : SlabM Nat} {Q : Nat → Hand → State → Prop}
    (ho : Orderly cfg fuel (g.decided h didTrim) s)
    (hshard : g.shard = (cpu, class_)) (hheld : g.held.Perm (h :: rest))
    (hgiven : g.given = []) (hk : ∀ s', Orderly cfg fuel (g.left rest) s' →
      Untouched class_ rest s.ground.mem s'.ground.mem →
      Amid (Leaves cfg fuel) (Moves cfg) k Q (g.left rest) s') :
    Amid (Leaves cfg fuel) (Moves cfg)
      (do
        Prog.when (didTrim = true)
          (Prog.modify (State.onGround (Header.setFlags h 3)))
        Prog.modify (State.onGround (Header.setLifeTime h stamp))
        (if didTrim then transferPushSingleTrimmed cfg class_ h cpu
        else transferPushSingle cfg class_ h cpu)
        k) Q (g.decided h didTrim) s := by
  have hin : h ∈ g.held := hheld.mem_iff.2 (List.mem_cons_self ..)
  have hcpu : cpu = g.shard.1 := by rw [hshard]
  have hclass : class_ = g.shard.2 := by rw [hshard]
  subst hcpu
  subst hclass
  have hrest : rest ⊆ g.held := fun b hb =>
    hheld.mem_iff.2 (List.mem_cons_of_mem _ hb)
  have hrow : BlockRow g.shard.2 (h :: rest) := by
    obtain ⟨contents, ho⟩ := ho
    have hrow := ho.heldRow
    rw [g.decided_held, g.decided_shard] at hrow
    exact hrow.sub (hheld.nodup_iff.1 hrow.nodup)
      fun b hb => hheld.mem_iff.2 hb
  cases didTrim with
  | false =>
      refine Amid.bind (Amid.ret (Amid.bind ?_))
      refine amid_atomic ho fun _ s₁ _ hu₁ =>
        ⟨g, .stamp stamp hin, fun ho₂ => ?_⟩
      have hchain : ∀ m : Mem, Delimits m h h [h] := fun _ => ⟨[], rfl, rfl⟩
      refine (transferPush_amid (g.left rest) ho₂ (fun s₃ _ => ?_) rfl
        hheld.symm.subperm).seq fun _ g' s' hpost => ?_
      · refine .put (hchain _) (show 1 ≤ trimRepushBatch by decide) hheld
          fun b _ => ?_
        rw [hgiven]
        exact List.not_mem_nil
      · obtain ⟨rfl, ho', hu'⟩ := hpost
        refine hk s' ho' (((hu₁.sub hrest).trans ?_).trans hu')
        exact .of_only hrow (only_block Header.only_setLifeTime)
  | true =>
      refine Amid.bind (amid_atomic ho fun _ s₁ _ hu₁ =>
        ⟨_, .mark hin (List.mem_singleton_self h), fun ho₂ => Amid.bind ?_⟩)
      refine amid_atomic ho₂ fun _ s₃ _ hu₃ =>
        ⟨_, .stamp stamp hin, fun ho₄ => ?_⟩
      have hflag : Header.flags (Header.setLifeTime h stamp s₃.ground).mem h
          = 3 := by
        rw [Header.flags_setLifeTime]
        exact (hu₃.flags hin).trans (Header.flags_setFlags (by decide))
      refine (transferPush_amid (g.left rest) ho₄ (fun s₅ hu₅ => ?_)
        rfl hheld.symm.subperm).seq fun _ g' s' hpost => ?_
      · have hact : Act cfg (g.decided h true) s₅ _ _ :=
          .putTrimmed hheld (List.mem_singleton_self h)
            ((hu₅.flags hin).trans hflag)
        have hleft : (g.decided h true).given.erase h = g.given := by
          rw [hgiven]
          exact List.erase_cons_head ..
        rw [hleft] at hact
        exact hact
      · obtain ⟨rfl, ho', hu'⟩ := hpost
        refine hk s' ho' (((hu₁.sub hrest).trans ?_).trans
          (((hu₃.sub hrest).trans ?_).trans hu'))
        · exact .of_only hrow (only_block Header.only_setFlags)
        · exact .of_only hrow (only_block Header.only_setLifeTime)

variable {requested : Nat}

/-- The second loop of `trim_small` empties the hand. -/
theorem releaseList_amid {cpu stamp : Nat} (n : Nat) {trimList total : Nat}
    {t : List Nat} (hn : t.length < n)
    (h : Releasing cfg fuel cpu class_ trimList t g s) :
    Amid (Leaves cfg fuel) (Moves cfg)
      (releaseList cfg class_ cpu stamp requested n trimList total)
      (fun _ g' s' => g'.held = [] ∧ Orderly cfg fuel g' s') g s := by
  induction n generalizing trimList total t g s with
  | zero => omega
  | succ n ih =>
      rw [releaseList]
      cases t with
      | nil =>
          rw [if_pos (show trimList = 0 from h.waiting)]
          exact Amid.ret ⟨h.held.eq_nil, h.orderly⟩
      | cons b t =>
          obtain rfl : trimList = b := h.waiting.1
          have hne : trimList ≠ 0 := by
            obtain ⟨contents, ho⟩ := h.orderly
            exact fun hz =>
              ho.real (h.held.mem_iff.2 (hz ▸ List.mem_cons_self ..))
          rw [if_neg hne]
          rw [List.length_cons] at hn
          have hclass : g.shard.2 = class_ := by rw [h.shard]
          have hsub : t ⊆ g.held := fun b hb =>
            h.held.mem_iff.2 (List.mem_cons_of_mem _ hb)
          apply Amid.bind
          refine amid_read h.orderly fun s₁ ho₁ hu₁ => ?_
          have hseg : LinkedSeg (Header.next s₁.ground.mem)
              (Header.next s₁.ground.mem trimList) t 0 :=
            (hu₁.seg (fun a ha => h.held.mem_iff.2 ha) h.waiting).2
          -- whether its pages go
          have hdecide : Amid (Leaves cfg fuel) (Moves cfg)
              (if requested = 0 ∨ total < requested then
                releaseMemory trimList (sizeClass class_) else pure false)
              (fun didTrim g' s' => g' = g.decided trimList didTrim
                ∧ Orderly cfg fuel g' s'
                ∧ Untouched class_ t s₁.ground.mem s'.ground.mem) g s₁ := by
            split
            · exact releaseMemory_amid ho₁ hclass h.held h.given
            · exact Amid.ret ⟨rfl, ho₁, .refl _ _ _⟩
          refine hdecide.seq fun didTrim g₂ s₂ hpost => ?_
          obtain ⟨rfl, ho₂, hu₂⟩ := hpost
          refine putBack_amid ho₂ h.shard h.held h.given
            fun s₃ ho₃ hu₃ => ?_
          exact ih (t := t) (by omega) ⟨ho₃, h.shard, .refl _, h.given,
            (hu₂.trans hu₃).seg (fun _ ha => ha) hseg⟩

-- ================================================================ the pass

/-- One CPU and class of `trim_small`. -/
theorem trimShard_amid {cpu total : Nat} (hp : (cpu, class_) ∈ shards cfg)
    (hfree : g.held = []) (ho : Orderly cfg fuel g s) :
    Amid (Leaves cfg fuel) (Moves cfg)
      (trimShard cfg fuel cpu class_ requested total)
      (fun _ g' s' => g'.held = [] ∧ Orderly cfg fuel g' s') g s := by
  unfold trimShard
  apply Amid.bind
  refine amid_atomic ho fun _ s₁ ho₁ _ => ?_
  obtain ⟨contents, hw⟩ := ho₁
  have hl := hw.lists _ hp
  have hshort := hw.short _ hp
  rw [Hand.of_nil hfree, List.nil_append] at hshort
  refine ⟨⟨(cpu, class_), contents (cpu, class_), []⟩,
    .take hfree hp hl, fun ho₂ => ?_⟩
  by_cases hzero : (detach (.mail cpu class_) s₁).1 = 0
  · rw [if_pos hzero]
    have hnil : contents (cpu, class_) = [] :=
      not_not.1 fun hne => hl.head_ne_zero.2 hne hzero
    exact Amid.ret ⟨hnil, ho₂⟩
  · rw [if_neg hzero]
    apply Amid.bind
    refine amid_read ho₂ fun s₃ ho₃ hu₃ => ?_
    apply Amid.bind
    refine amid_idle ho₃ (fun _ _ => ⟨_, _, _, _, rfl⟩) fun i s₄ ho₄ hu₄ => ?_
    have hsort : SortingOut cfg fuel cpu class_ (s₁.list (.mail cpu class_))
        (contents (cpu, class_)) [] [] ⟨0, 0, 0, 0⟩
        ⟨(cpu, class_), contents (cpu, class_), []⟩
        (s₄.scanned cpu class_ i.age) := by
      refine ⟨ho₄, rfl, ?_, rfl, ?_, rfl, rfl, rfl, fun h => absurd rfl h⟩
      · rw [List.append_nil, List.append_nil]
      · exact (hu₃.trans hu₄).seg (fun _ ha => ha) hl.1
    refine (sortList_amid fuel hshort (by decide) hsort).seq
      fun w g₅ s₅ hpost => ?_
    obtain ⟨t, c, hsmall, h₅⟩ := hpost
    -- the blocks that are not given back go first
    have hrelease : ∀ w' g₆ s₆, w'.trimList = w.trimList →
        SortingOut cfg fuel cpu class_ 0 [] t [] w' g₆ s₆ →
        Amid (Leaves cfg fuel) (Moves cfg)
          (releaseList cfg class_ cpu s₃.stamp requested fuel w.trimList
            total)
          (fun _ g' s' => g'.held = [] ∧ Orderly cfg fuel g' s') g₆ s₆ := by
      intro w' g₆ s₆ hw' h₆
      rw [← hw']
      have hrel := h₆.releasing
      refine releaseList_amid fuel ?_ hrel
      rw [← hrel.held.length_eq]
      obtain ⟨contents', ho'⟩ := hrel.orderly
      by_cases hne : g₆.held = []
      · rw [hne]
        exact Nat.lt_of_le_of_lt (Nat.zero_le _) hshort
      · exact ho'.held_length hne
    apply Amid.bind
    refine Amid.when (fun hpush => ?_) fun hpush => ?_
    · have hne : c ≠ [] := by
        intro hnil
        rw [h₅.count, hnil] at hpush
        exact absurd hpush (Nat.lt_irrefl 0)
      exact (h₅.flush hne (Nat.le_of_lt hsmall)).mono
        fun _ g₆ s₆ h₆ => hrelease ⟨w.trimList, 0, 0, 0⟩ g₆ s₆ rfl h₆
    · have hnil : c = [] := by
        rw [h₅.count] at hpush
        exact List.length_eq_zero_iff.1 (Nat.eq_zero_of_not_pos hpush)
      rw [hnil] at h₅
      exact hrelease w g₅ s₅ rfl h₅

theorem trimClasses_amid {cpu : Nat} (n class_ : Nat) {total : Nat}
    (hp : ∀ c, class_ ≤ c → c < class_ + n → (cpu, c) ∈ shards cfg)
    (hfree : g.held = []) (ho : Orderly cfg fuel g s) :
    Amid (Leaves cfg fuel) (Moves cfg)
      (trimClasses cfg fuel cpu requested n class_ total)
      (fun _ g' s' => g'.held = [] ∧ Orderly cfg fuel g' s') g s := by
  induction n generalizing class_ total g s with
  | zero => exact Amid.ret ⟨hfree, ho⟩
  | succ n ih =>
      refine (trimShard_amid (hp class_ (le_refl _) (by omega)) hfree ho).seq
        fun total' g' s' hpost => ?_
      exact ih (class_ + 1) (fun c h₁ h₂ => hp c (by omega) (by omega))
        hpost.1 hpost.2

theorem trimCpus_amid (n cpu : Nat) {total : Nat} (hcpu : cpu + n ≤ cfg.ncpu)
    (hfree : g.held = []) (ho : Orderly cfg fuel g s) :
    Amid (Leaves cfg fuel) (Moves cfg)
      (trimCpus cfg fuel requested n cpu total)
      (fun _ g' s' => g'.held = [] ∧ Orderly cfg fuel g' s') g s := by
  induction n generalizing cpu total g s with
  | zero => exact Amid.ret ⟨hfree, ho⟩
  | succ n ih =>
      refine (trimClasses_amid _ _ (fun c h₁ h₂ => ?_) hfree ho).seq
        fun total' g' s' hpost => ?_
      · exact ⟨by omega, h₁, h₂⟩
      · exact ih (cpu + 1) (by omega) hpost.1 hpost.2

/-- Whatever other threads do between its steps, as long as they leave
the blocks in its hand alone, `trim_small` only takes lists, works on
the blocks it has taken and puts them back, and has put all of them back
when it returns. -/
theorem trim_pass_puts_back {requested : Nat} {s : State}
    (hs : Orderly cfg fuel .empty s) :
    Amid (Leaves cfg fuel) (Moves cfg) (trimSmall cfg fuel requested)
      (fun _ g _ => g.held = []) .empty s := by
  unfold trimSmall
  apply Amid.bind
  refine amid_atomic hs fun _ s₁ _ _ => ?_
  cases hlock : s₁.trimLock with
  | true => exact ⟨.empty, .idle (.refl s₁), fun _ => Amid.ret rfl⟩
  | false =>
      refine ⟨.empty, .idle ⟨_, _, _, _, rfl⟩, fun ho₁ => ?_⟩
      refine (trimCpus_amid cfg.ncpu 0 (Nat.zero_add _).le rfl ho₁).seq
        fun total g' s' hpost => ?_
      apply Amid.bind
      exact amid_idle hpost.2 (fun _ s₂ => ⟨_, _, _, _, rfl⟩)
        fun _ s₂ _ _ => Amid.ret hpost.1

/-- Two blocks of 8192 bytes on the normal list of the only CPU, long
unused. -/
def coldPair : State :=
  { ((State.new fun x => if x = 8200 ∨ x = 24584 then 2 else 0).setList
      (.mail 0 23) 8192).onGround (Header.setNext 8192 24576) with
    stamp := 100 }

/-- The lists of that state. -/
def coldPairLists (p : Nat × Nat) : List Nat :=
  if p = (0, 23) then [8192, 24576] else []

theorem coldPair_orderly (arenaSize : Nat) :
    Orderly (.single arenaSize) 3 .empty coldPair := by
  have hof : ∀ p, Hand.empty.of p = [] := fun p => Hand.of_nil rfl
  have hother : ∀ p, p ≠ (0, 23) → coldPairLists p = [] :=
    fun p hp => if_neg hp
  refine ⟨coldPairLists, ⟨fun p _ => ?_, fun p _ q _ hne a ha b hb => ?_⟩,
    fun p _ => ?_, fun p _ => ?_, fun h => absurd rfl h, List.not_mem_nil⟩
  · rw [hof, List.nil_append]
    by_cases hp : p = (0, 23)
    · subst hp
      exact ⟨by decide, by decide, by decide⟩
    · rw [hother p hp]
      exact ⟨List.nodup_nil, nofun,
        nofun⟩
  · rw [hof, List.nil_append] at ha hb
    have hp : p = (0, 23) := not_not.1 fun h => by
      rw [hother p h] at ha
      exact absurd ha List.not_mem_nil
    have hq : q = (0, 23) := not_not.1 fun h => by
      rw [hother q h] at hb
      exact absurd hb List.not_mem_nil
    exact absurd (hp.trans hq.symm) hne
  · by_cases hp : p = (0, 23)
    · subst hp
      have hlast : Header.next coldPair.ground.mem 24576 = 0 := by
        decide +kernel
      exact ⟨⟨rfl, Header.next_setNext (by decide), hlast⟩, by decide⟩
    · rw [hother p hp]
      refine ⟨?_, List.not_mem_nil⟩
      show Function.update (fun _ => 0) _ _ _ = 0
      exact Function.update_of_ne (mail_ne hp) _ _
  · rw [hof, List.nil_append, coldPairLists]
    split <;> decide

/-- Both blocks are advised and trimmed. -/
theorem trim_pass_puts_back_coldPair :
    Amid (Leaves (.single 0) 3) (Moves (.single 0))
      (trimSmall (.single 0) 3 0) (fun _ g _ => g.held = []) .empty
      coldPair
    ∧ ((trimSmall (.single 0) 3 0).exec (fun _ => {}) coldPair).map
      (fun r => (r.1, r.2.advice.map Advice.block, r.2.list (.mail 0 23)))
        = some (16384, [8192, 24576], 0) :=
  ⟨trim_pass_puts_back (coldPair_orderly 0), by decide +kernel⟩

end RsMalloc.Slab
