/-
Big allocations: blocks of the buddy backend, and mappings of their own.

# Rounding

`estimate_and_align_2mb` adds up to 64 KiB without looking for an
overflow. `Wraps` is when it runs over the end of the address space; it
then returns zero, and everywhere else it returns at least what it was
given.

# Records

`Big cfg m p`: the part `p` is a big allocation that `BIG_META_MAP`
knows as `m`. A block of the backend has the region and the order of the
entry; the length of a mapping stands nowhere, and is what the recorded
size gives again. `bigMalloc_runs` and `bigFree_runs` are for callers.
-/
import RsMalloc.Heap.Backend

namespace RsMalloc.Heap

open Conc

open RbTree (BigAllocMeta)

open Buddy (IsTile Untouched)

variable {cfg : Config} {E : Env → Prop} {P : State → Prop} {s : State}

-- ============================================================== rounding

theorem nextPowerOfTwo_le (n : Nat) : n ≤ Buddy.nextPowerOfTwo n := by
  unfold Buddy.nextPowerOfTwo
  split
  · assumption
  · have hlog := Nat.lt_log2_self (n := n - 1)
    omega

theorem nextPowerOfTwo_pow (n : Nat) :
    ∃ k, Buddy.nextPowerOfTwo n = 2 ^ k := by
  unfold Buddy.nextPowerOfTwo
  split
  · exact ⟨0, rfl⟩
  · exact ⟨_, rfl⟩

/-- A block of the order of a size holds that size. -/
theorem le_two_pow_orderForSize (n : Nat) : n ≤ 2 ^ orderForSize n := by
  obtain ⟨k, hk⟩ := nextPowerOfTwo_pow (max n 1)
  have hle := nextPowerOfTwo_le (max n 1)
  rw [orderForSize, hk, Nat.log2_two_pow]
  rw [hk] at hle
  exact (Nat.le_max_left ..).trans hle

theorem nextPowerOfTwo_two_pow (k : Nat) :
    Buddy.nextPowerOfTwo (2 ^ k) = 2 ^ k := by
  cases k with
  | zero => rfl
  | succ k =>
      have hpow := Nat.two_pow_pos k
      have hbig : ¬ 2 ^ (k + 1) ≤ 1 := by rw [Nat.pow_succ]; omega
      have hlog : Nat.log2 (2 ^ (k + 1) - 1) = k := by
        rw [Nat.log2_eq_iff (by omega)]
        rw [Nat.pow_succ] at hbig ⊢
        omega
      rw [Buddy.nextPowerOfTwo, if_neg hbig, hlog]

theorem eq_nextPowerOfTwo_iff {n : Nat} :
    n = Buddy.nextPowerOfTwo n ↔ ∃ k, n = 2 ^ k := by
  constructor
  · intro h
    obtain ⟨k, hk⟩ := nextPowerOfTwo_pow n
    exact ⟨k, h.trans hk⟩
  · rintro ⟨k, rfl⟩
    exact (nextPowerOfTwo_two_pow k).symm

theorem orderForSize_two_pow (k : Nat) : orderForSize (2 ^ k) = k := by
  rw [orderForSize, Nat.max_eq_left (Nat.two_pow_pos k),
    nextPowerOfTwo_two_pow, Nat.log2_two_pow]

/-- Rounding `n` bytes up passes the end of the address space. -/
def Wraps (cfg : Config) (n : Nat) : Prop :=
  2 ^ 64 - 4096 < n ∨ cfg.rsDisableThp = false ∧ 2 ^ 64 - 65536 ≤ n

instance (cfg : Config) (n : Nat) : Decidable (Wraps cfg n) :=
  inferInstanceAs (Decidable (_ ∨ _))

theorem estimate_of_wraps {n : Nat} (hn : n < 2 ^ 64) (h : Wraps cfg n) :
    estimateAndAlign2mb cfg n = 0 := by
  unfold Wraps at h
  simp only [estimateAndAlign2mb, alignTo]
  split
  · omega
  · next hno =>
    simp only [not_and] at hno
    cases hthp : cfg.rsDisableThp with
    | true => simp only [hthp, reduceCtorEq, false_and, or_false] at h; omega
    | false =>
        simp only [hthp, not_true_eq_false, imp_false] at hno
        omega

theorem estimate_of_not_wraps {n : Nat} (hn : n < 2 ^ 64)
    (h : ¬ Wraps cfg n) :
    n ≤ estimateAndAlign2mb cfg n ∧ estimateAndAlign2mb cfg n ≤ n + 65536
      ∧ estimateAndAlign2mb cfg n % pageSize = 0 := by
  unfold Wraps at h
  simp only [estimateAndAlign2mb, alignTo, pageSize]
  split
  · next hthp =>
    simp only [hthp.2.2, true_and, not_or] at h
    omega
  · omega

/-- What fits in user space does not wrap. -/
theorem not_wraps_of_lt {n : Nat} (h : n < 2 ^ 63) : ¬ Wraps cfg n := by
  unfold Wraps
  omega

/-- Rounding is monotone. -/
theorem estimate_mono {n k : Nat} (hnk : n ≤ k) (hk : k < 2 ^ 64)
    (h : ¬ Wraps cfg k) :
    estimateAndAlign2mb cfg n ≤ estimateAndAlign2mb cfg k := by
  unfold Wraps at h
  simp only [estimateAndAlign2mb, alignTo]
  cases hthp : cfg.rsDisableThp with
  | true =>
      simp only [reduceCtorEq, and_false, if_false]
      omega
  | false =>
      simp only [hthp, true_and, not_or] at h
      simp only [and_true]
      split <;> split <;> omega

variable {m : BigAllocMeta} {n : Nat}

theorem pageUp_of_mod (h : n % pageSize = 0) : pageUp n = n := by
  simp only [pageUp, pageSize] at h ⊢
  omega

-- =============================================================== entries

section Entries

variable {p : Part} {e : Option BigAllocMeta} {f : Res}

/-- A part of others is recorded under another key. -/
theorem HInv.not_entry (h : HInv cfg s ({(p, e)} + f)) (hpos : 0 < p.len) :
    ¬ Entry f (p.base + headerSize) m := by
  rintro ⟨q, hq, hk⟩
  obtain ⟨lists, node, hat⟩ := h
  obtain ⟨C, -, hsp, -⟩ := hat.places
  have hm := hsp.holds
  rw [parts_add, parts_singleton, add_assoc] at hm
  refine hm.base_ne (q := q) (Multiset.mem_add.2 (Or.inl (mem_parts hq)))
    hpos ((hat.owned _ (Multiset.mem_add.2 (Or.inr hq))).recorded m rfl) ?_
  omega

/-- The map shows the entry of an owned part. -/
theorem HInv.entry_eq (h : HInv cfg s ({(p, e)} + f)) (hpos : 0 < p.len) :
    s.bigMap (p.base + headerSize) = e := by
  have hno := fun m => h.not_entry (m := m) hpos
  obtain ⟨lists, node, hat⟩ := h
  have hentry : ∀ m, s.bigMap (p.base + headerSize) = some m ↔ e = some m := by
    intro m
    rw [hat.entry, entry_add, entry_singleton]
    simp [hno m]
  exact Option.ext hentry

/-- The owner of a part changes its entry. -/
theorem HInv.setEntry (h : HInv cfg s ({(p, e)} + f)) (hpos : 0 < p.len)
    (e' : Option BigAllocMeta) :
    HInv cfg { s with
      bigMap := Function.update s.bigMap (p.base + headerSize) e' }
      ({(p, e')} + f) := by
  have hno := fun m => h.not_entry (m := m) hpos
  obtain ⟨lists, node, hat⟩ := h
  have hparts : parts ({(p, e')} + f) = parts ({(p, e)} + f) := by
    rw [parts_add, parts_add, parts_singleton, parts_singleton]
  refine ⟨lists, node, ?_, hat.nodup, fun r hr => (hat.region r hr).congr rfl,
    fun r hr => ?_, hat.owned_instead fun x hx => ?_, fun k m => ?_⟩
  · rw [hparts]
    exact hat.slab
  · rw [hparts]
    exact hat.tiling r hr
  · have hown := hat.owned (p, e) mem_singleton_add_self
    rw [Multiset.mem_singleton.1 hx]
    exact ⟨hown.tile, hown.raw, fun _ _ => hpos⟩
  · dsimp only
    rw [entry_add, entry_singleton]
    by_cases hk : k = p.base + headerSize
    · rw [hk, Function.update_self]
      simp [hno m]
    · rw [Function.update_of_ne hk, hat.entry, entry_add, entry_singleton]
      simp [hk]

theorem bigMapInsert_runs (hpos : 0 < p.len) :
    Runs E P (HInv cfg) (bigMapInsert (p.base + headerSize) m)
      (fun _ s' x => s'.region = s.region ∧ x = {(p, some m)}) s
      {(p, none)} := by
  refine Runs.bind (Runs.ask fun i _ => ?_)
  split
  · exact Runs.modify fun f _ hI => ⟨_, hI.setEntry hpos (some m), rfl, rfl⟩
  · exact Runs.halt

theorem bigMapReplace_runs {m' : BigAllocMeta} (hpos : 0 < p.len) :
    Runs E P (HInv cfg) (bigMapReplace (p.base + headerSize) m')
      (fun _ s' x => s'.region = s.region ∧ x = {(p, some m')}) s
      {(p, some m)} := by
  refine Runs.modify fun f _ hI => ⟨{(p, some m')}, ?_, rfl, rfl⟩
  have hset := hI.setEntry hpos (some m')
  have hsome : (s.bigMap (p.base + headerSize)).isSome = true := by
    rw [hI.entry_eq hpos]
    rfl
  simp only [RbTree.MetaMap.step, hsome, if_true]
  exact hset

theorem bigMapRemove_runs (hpos : 0 < p.len) :
    Runs E P (HInv cfg) (bigMapRemove (p.base + headerSize))
      (fun o _ x => o = some m ∧ x = {(p, none)}) s {(p, some m)} := by
  refine Runs.atomic fun _ f _ _ hI => ⟨{(p, none)}, ?_, ?_, rfl⟩
  · exact hI.setEntry hpos none
  · exact hI.entry_eq hpos

end Entries

-- =============================================================== records

/-- Where the allocation with the entry `m` lies. -/
inductive Seat (cfg : Config) (m : BigAllocMeta) (p : Part) : Prop
  /-- In a block of the backend. -/
  | block (ne : m.buddyRegion ≠ 0)
      (tile : IsTile (.tile m.buddyRegion) m.order p)
  /-- In a mapping of its own. -/
  | mapping (zero : m.buddyRegion = 0) (kind : p.kind = .direct m.aligned)
      (len : p.len = estimateAndAlign2mb cfg (m.size + headerSize))

/-- The part is a big allocation, recorded as `m`. -/
structure Big (cfg : Config) (m : BigAllocMeta) (p : Part) : Prop where
  seat : Seat cfg m p
  room : m.size + headerSize ≤ p.len
  page : p.base % pageSize = 0
  link : Header.next p.data p.base = 0
  magic : Header.magic p.data p.base = cfg.bigMagic % 2 ^ 16

namespace Big

variable {m : BigAllocMeta} {p : Part} {f : Res}

theorem pos (h : Big cfg m p) : 0 < p.len := by
  have hroom := h.room
  simp only [headerSize] at hroom
  omega

/-- A part of a big allocation promises nothing. -/
theorem plain (h : Big cfg m p) : p.kind.isPlain = true := by
  rcases h.seat with ⟨-, htile⟩ | ⟨-, hk, -⟩
  · rw [htile.kind]
    rfl
  · rw [hk]
    rfl

theorem size_lt (h : Big cfg m p) (hI : HInv cfg s ({(p, some m)} + f)) :
    m.size + headerSize < 2 ^ 47 := by
  have hb := hI.bounds h.pos
  have hroom := h.room
  simp only [pageSize] at hb
  omega

end Big

-- ============================================================ allocating

/-- The part `q` is `p` with the `Header` of a big allocation. -/
structure Headed (cfg : Config) (flag : Nat) (p q : Part) : Prop where
  kind : q.kind = p.kind
  base : q.base = p.base
  len : q.len = p.len
  link : Header.next q.data q.base = 0
  magic : Header.magic q.data q.base = cfg.bigMagic % 2 ^ 16
  flags : Header.flags q.data q.base = flag
  rest : ∀ x, p.Has x → p.base + headerSize ≤ x → q.data x = p.data x

variable {p : Part}

theorem writeHeader_inv {e : Option BigAllocMeta} {f : Res} (flag : Nat)
    (hI : HInv cfg s ({(p, e)} + f)) (hk : p.kind.isPlain = true)
    (hlen : headerSize ≤ p.len) (hflag : flag < 256) :
    ∃ q, HInv cfg (s.onGround
        (Header.write p.base 0 flag 100 cfg.bigMagic 0)) ({(q, e)} + f)
      ∧ Headed cfg flag p q := by
  let m := (Header.write p.base 0 flag 100 cfg.bigMagic 0
    s.slab.ground).mem
  have honly : Mem.Only p.base 16 s.slab.ground.mem m := Header.only_write
  refine ⟨{ p with data := m }, hI.rewrite rfl rfl rfl fun H hH => ?_, rfl,
    rfl, rfl, Header.next_write (by decide), Header.magic_write,
    Header.flags_write hflag, fun x hx hge => ?_⟩
  · exact hH.rewrite honly ⟨le_rfl, by simp only [headerSize] at hlen; omega⟩
      hk
  · obtain ⟨H, hsp⟩ := hI.front
    refine (honly x ?_).trans (hsp.holds.agree p (by simp) x hx)
    simp only [headerSize] at hge
    omega

/-- The payload is zero, but for the time that the node of a free block
leaves in its first bytes. -/
structure Blank (s : State) (p : Part) : Prop where
  stamp : Mem.load 4 p.data (p.base + headerSize) = 0
    ∨ ∃ r, p.kind = .tile r
      ∧ Mem.load 4 p.data (p.base + headerSize) = (s.region r).birth
  rest : ∀ x, p.base + headerSize + 4 ≤ x → x < p.base + p.len →
    p.data x = 0

/-- The flags say that the payload is to be cleared, or it is blank. -/
def Flagged (s : State) (p : Part) : Prop :=
  Header.flags p.data p.base = zeroFlag ∧ Blank s p
  ∨ Header.flags p.data p.base = allocatedFlag
  ∨ Header.flags p.data p.base = trimmedFlag

theorem Blank.of_zero {q : Part} {flag : Nat} (h : Headed cfg flag p q)
    (hp : headerSize + 4 ≤ p.len) (hzero : ∀ x, p.Has x → p.data x = 0) :
    Blank s q := by
  have hdata : ∀ x, q.base + headerSize ≤ x → x < q.base + q.len →
      q.data x = 0 := by
    intro x h₁ h₂
    rw [h.base] at h₁ h₂
    rw [h.len] at h₂
    have hx : p.Has x := ⟨by omega, h₂⟩
    rw [h.rest x hx h₁]
    exact hzero x hx
  have hlen := h.len
  refine ⟨Or.inl (Mem.load_eq_zero_iff.2 fun x h₁ h₂ => ?_), fun x h₁ h₂ => ?_⟩
  · exact hdata x h₁ (by omega)
  · exact hdata x (by omega) h₂

theorem Blank.of_untouched {q : Part} {flag r : Nat} (h : Headed cfg flag p q)
    (hp : headerSize + 5 ≤ p.len) (hk : p.kind = .tile r)
    (hfresh : Untouched (s.region r).birth p) : Blank s q := by
  have hbase := h.base
  have hlen := h.len
  have hload : ∀ w k, headerSize ≤ k → k + w ≤ p.len →
      Mem.load w q.data (q.base + k) = Mem.load w p.data (p.base + k) := by
    intro w k h₁ h₂
    rw [hbase]
    exact Mem.load_congr fun x hx hx' =>
      h.rest x ⟨by omega, by omega⟩ (by omega)
  refine ⟨Or.inr ⟨r, h.kind.trans hk, ?_⟩, fun x h₁ h₂ => ?_⟩
  · exact (hload 4 headerSize le_rfl (by omega)).trans hfresh.life
  · simp only [headerSize] at h₁ hp hload
    rw [h.rest x ⟨by omega, by omega⟩ (by simp only [headerSize]; omega)]
    rcases Nat.lt_or_ge x (p.base + 21) with hlt | hge
    · have hstate := hfresh.state
      rw [Buddy.FreeBlock.trimState, Mem.load_eq_zero_iff] at hstate
      exact hstate x (by omega) (by omega)
    · exact hfresh.zero x hge (by omega)

/-- What a caller of `big_malloc` gets. -/
def GotBig (cfg : Config) (size : Nat) (aligned : Bool) (a : Nat)
    (s : State) (x : Res) : Prop :=
  a = 0 ∧ x = 0
  ∨ ∃ p m, a = p.base + headerSize ∧ x = {(p, some m)} ∧ Big cfg m p
    ∧ m.size = size ∧ m.aligned = aligned ∧ Flagged s p

/-- A block of the backend becomes an allocation. -/
theorem finishBlock_runs {size flag r order : Nat} {aligned : Bool}
    (hp : IsTile (.tile r) order p) (hroom : size + headerSize ≤ 2 ^ order)
    (horder : 5 ≤ order)
    (hflag : flag = zeroFlag ∧ Untouched (s.region r).birth p
      ∨ flag = allocatedFlag ∨ flag = trimmedFlag) :
    Runs E P (HInv cfg)
      (bigMallocFinish cfg p.base flag size (2 ^ order) r true aligned)
      (GotBig cfg size aligned) s {(p, none)} := by
  have hlen := hp.len
  have hbig : 2 ^ 5 ≤ 2 ^ order := Nat.pow_le_pow_right (by decide) horder
  refine Runs.inv fun f _ hI₀ => ?_
  have hseat := hI₀.seated hp
  refine Runs.bind (Runs.modify fun f _ hI => ?_)
  obtain ⟨q, hI', hq⟩ := writeHeader_inv flag hI
    (by rw [hp.kind]; rfl) (by simp only [headerSize]; omega)
    (by rcases hflag with ⟨rfl, -⟩ | rfl | rfl <;> decide)
  refine ⟨_, hI', ?_⟩
  refine Runs.bind (Runs.when (fun h => by cases h) fun _ => ?_)
  rw [← hq.base]
  refine (bigMapInsert_runs (by rw [hq.len, hlen]; omega)).andThen
    fun _ s' x hx => Runs.ret ?_
  obtain ⟨hregion, rfl⟩ := hx
  refine Or.inr ⟨q, _, rfl, rfl, ⟨.block hseat.ne ⟨?_, ?_⟩, ?_, ?_, hq.link,
    hq.magic⟩, rfl, rfl, ?_⟩
  · exact hq.kind.trans hp.kind
  · rw [hq.len, orderForSize_two_pow]
    exact hlen
  · rw [hq.len, hlen]
    exact hroom
  · rw [hq.base]
    exact hseat.align
  · rcases hflag with ⟨rfl, hfresh⟩ | rfl | rfl
    · have hblank : Blank s q := .of_untouched hq
        (by simp only [headerSize]; omega) hp.kind hfresh
      refine Or.inl ⟨hq.flags, ?_, hblank.rest⟩
      rw [hregion]
      exact hblank.stamp
    · exact Or.inr (Or.inl hq.flags)
    · exact Or.inr (Or.inr hq.flags)

/-- A mapping is put into the ownership map as its entry says. -/
theorem registerBig_inv {f : Res} (aligned : Bool)
    (hI : HInv cfg s ({(p, none)} + f)) (hk : p.kind = .raw (p.base, p.len))
    (hpos : 0 < n) (hlen : p.len = pageUp n) (hpage : p.base % pageSize = 0) :
    HInv cfg (s.onGround fun g =>
        if aligned then g.setRange p.base n true
        else g.setSingleBig p.base true)
      ({({ p with kind := .direct aligned }, none)} + f) := by
  have hup : 0 < p.len := hlen ▸ pageUp_pos hpos
  refine hI.relabel (fun r hr => ?_) nofun rfl hup fun H _ hH => ?_
  · rw [hk] at hr
    cases hr
  · have hhouse := hH.housed p (by simp)
    rw [Housed, hk] at hhouse
    cases aligned with
    | true => exact hH.registerRange hk hhouse.1 hpage hpos hlen
    | false => exact hH.registerSingle hk hhouse.1 hup

/-- A fresh mapping becomes an allocation. -/
theorem finishMapping_runs {size : Nat} {aligned : Bool}
    (hp : IsMapping (estimateAndAlign2mb cfg (size + headerSize)) p.base p)
    (hlt : size + headerSize < 2 ^ 64) (hno : ¬ Wraps cfg (size + headerSize)) :
    Runs E P (HInv cfg)
      (bigMallocFinish cfg p.base zeroFlag size
        (estimateAndAlign2mb cfg (size + headerSize)) 0 false aligned)
      (GotBig cfg size aligned) s {(p, none)} := by
  obtain ⟨hle, -, hmod⟩ := estimate_of_not_wraps hlt hno
  have hlen := hp.len
  rw [pageUp_of_mod hmod] at hlen
  have hfour : 4096 ≤ p.len := by
    have hpos := hp.pos
    simp only [pageSize] at hmod
    omega
  refine Runs.bind (Runs.modify fun f _ hI => ?_)
  obtain ⟨q, hI', hq⟩ := writeHeader_inv zeroFlag hI
    (by rw [hp.kind]; rfl) (by simp only [headerSize]; omega) (by decide)
  refine ⟨_, hI', ?_⟩
  have hqpage : q.base % pageSize = 0 := by
    rw [hq.base]
    exact hp.align
  refine Runs.bind (Runs.when (fun _ => ?_) fun h => absurd rfl h)
  rw [← hq.base]
  refine Runs.modify fun f' _ hI₂ => ⟨_, registerBig_inv aligned hI₂ ?_ hp.pos
    (hq.len.trans hp.len) hqpage, ?_⟩
  · rw [hq.kind, hp.kind, hq.base, hq.len]
  refine (bigMapInsert_runs (p := { q with kind := .direct aligned })
    (by simp only [hq.len]; omega)).andThen fun _ s' x hx => Runs.ret ?_
  obtain ⟨-, rfl⟩ := hx
  have hblank : Blank s' q := .of_zero hq (by simp only [headerSize]; omega)
    hp.zero
  refine Or.inr ⟨{ q with kind := .direct aligned }, _, rfl, rfl,
    ⟨.mapping rfl rfl ?_, ?_, hqpage, hq.link, hq.magic⟩, rfl, rfl,
    Or.inl ⟨hq.flags, Or.inl ?_, hblank.rest⟩⟩
  · exact hq.len.trans hlen
  · exact hle.trans_eq (hq.len.trans hlen).symm
  · rcases hblank.stamp with hzero | ⟨r, hk, -⟩
    · exact hzero
    · rw [hq.kind, hp.kind] at hk
      cases hk

/-- `big_malloc`: null, or an allocation of the size that was asked
for. -/
theorem bigMalloc_runs (size : Nat) (aligned : Bool) :
    Runs E P (HInv cfg) (bigMalloc cfg size aligned)
      (GotBig cfg size aligned) s 0 := by
  unfold bigMalloc
  split
  · exact Runs.ret (Or.inl ⟨rfl, rfl⟩)
  · next total hadd =>
    unfold checkedAdd at hadd
    split at hadd
    swap
    · cases hadd
    next hlt =>
    cases hadd
    let order := max
      (orderForSize (estimateAndAlign2mb cfg (size + headerSize)))
      Buddy.minOrder
    refine Runs.bind (Runs.ask fun i _ => ?_)
    refine Runs.readThen ?_
    refine Runs.andThen (S := fun o s x => GotBlock order o s x
      ∧ (o.isSome = true → size ≤ 1024 * 1024 * 64)) ?_ fun o s' x hx => ?_
    · split
      · next huse =>
        simp only [Bool.and_eq_true, decide_eq_true_eq] at huse
        exact (backendAlloc_runs _ _).mono fun o s' x hx =>
          ⟨hx, fun _ => huse.1.1⟩
      · exact Runs.ret ⟨rfl, fun h => by cases h⟩
    obtain ⟨hx, hsmall⟩ := hx
    cases o with
    | some b =>
        obtain ⟨horder, p, rfl, htile, hbase, hfresh⟩ := hx
        have hno : ¬ Wraps cfg (size + headerSize) := not_wraps_of_lt (by
          have := hsmall rfl
          simp only [headerSize]
          omega)
        have hroom : size + headerSize ≤ 2 ^ order :=
          (estimate_of_not_wraps hlt hno).1.trans
            ((le_two_pow_orderForSize _).trans
              (Nat.pow_le_pow_right (by decide) (Nat.le_max_left ..)))
        dsimp only
        rw [horder, ← hbase]
        refine finishBlock_runs htile hroom
          (le_trans (by decide) (Nat.le_max_right ..)) ?_
        split
        · next hstate => exact Or.inl ⟨rfl, hfresh hstate⟩
        · split
          · exact Or.inr (Or.inr rfl)
          · exact Or.inr (Or.inl rfl)
    | none =>
        obtain rfl : x = 0 := hx
        refine (mmap_runs _).andThen fun o s' x hx => ?_
        cases o with
        | none => exact Runs.ret (Or.inl ⟨rfl, hx⟩)
        | some a =>
            obtain ⟨p, rfl, hp⟩ := hx
            obtain rfl := hp.base
            refine finishMapping_runs hp hlt fun hwrap => ?_
            have hpos := hp.pos
            rw [estimate_of_wraps hlt hwrap] at hpos
            exact lt_irrefl 0 hpos

-- =============================================================== freeing

/-- A mapping is taken out of the ownership map as it was put there. -/
theorem unregisterBig_inv {f : Res} {aligned : Bool}
    (hI : HInv cfg s ({(p, none)} + f)) (hk : p.kind = .direct aligned)
    (hpos : 0 < n) (hlen : p.len = pageUp n) (hpage : p.base % pageSize = 0) :
    HInv cfg (s.onGround fun g =>
        if aligned then g.setRange p.base n false
        else g.setSingleBig p.base false)
      ({({ p with kind := .raw (p.base, p.len) }, none)} + f) := by
  have hup : 0 < p.len := hlen ▸ pageUp_pos hpos
  refine hI.relabel (fun r hr => ?_) nofun rfl hup fun H _ hH => ?_
  · rw [hk] at hr
    cases hr
  · cases aligned with
    | true => exact hH.unregisterRange hk hpage hpos hlen
    | false =>
        exact hH.unregisterSingle hk hpage hup
          (hlen ▸ (pageUp_spec n).2.2)

/-- `big_free` takes an allocation back as a whole. -/
theorem bigFree_runs (hp : Big cfg m p) :
    Runs E P (HInv cfg) (bigFree cfg (p.base + headerSize))
      (fun a _ x => a = .ok () ∧ x = 0) s {(p, some m)} := by
  refine Runs.inv fun f _ hI => ?_
  have hlt := hp.size_lt hI
  refine (bigMapRemove_runs hp.pos).andThen fun o s' x hx => ?_
  obtain ⟨rfl, rfl⟩ := hx
  dsimp only
  rw [Nat.add_sub_cancel, Nat.mod_eq_of_lt (by omega)]
  rcases hp.seat with ⟨hne, htile⟩ | ⟨hzero, hk, hlen⟩
  · rw [if_pos hne]
    exact (backendFree_runs htile).andThen fun _ _ x hx =>
      Runs.ret ⟨rfl, hx⟩
  · have hno : ¬ Wraps cfg (m.size + headerSize) := not_wraps_of_lt (by omega)
    have hmod := (estimate_of_not_wraps (by omega) hno).2.2
    rw [if_neg (not_not.2 hzero), ← hlen]
    rw [← hlen] at hmod
    have hup : p.len = pageUp p.len := (pageUp_of_mod hmod).symm
    refine Runs.bind (Runs.modify fun f _ hI' => ⟨_, unregisterBig_inv hI' hk
      hp.pos hup hp.page, ?_⟩)
    exact (munmap_runs (p := { p with kind := .raw (p.base, p.len) }) rfl
      hp.pos hup).andThen fun _ _ x hx => Runs.ret ⟨rfl, hx⟩

end RsMalloc.Heap
