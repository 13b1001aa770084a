/-
Mappings that somebody owns as a whole.

# Direct mappings

A fresh mapping belongs to whoever asked for it. Registering it, as a
whole or by its first chunk only, makes it a direct mapping
(`Space.registerRange`, `Space.registerSingle`). It may grow in place
(`Space.remap`), and it is given back with all that was registered
(`Space.unmap`, after `Space.unregisterRange` or
`Space.unregisterSingle`).

# Regions

A mapping that is registered as a whole may become the blocks of a
buddy region. From then on the blocks are cut and joined by their
owners, who keep covering the same bytes (`Space.retile`).
-/
import RsMalloc.Ground.Space

namespace RsMalloc

-- ============================================================= the kernel

section Maps

variable {maps : List (Nat × Nat)} {a n x : Nat} {e e' : Nat × Nat}

/-- What is left of a mapping are the addresses outside the range. -/
theorem mem_leftOver (h : e' ∈ Ground.leftOver a n e) :
    (0 < e.2 → 0 < e'.2) ∧ e.1 ≤ e'.1 ∧ e'.1 + e'.2 ≤ e.1 + e.2
      ∧ (e'.1 + e'.2 ≤ a ∨ a + n ≤ e'.1) := by
  unfold Ground.leftOver at h
  split at h
  · rw [List.mem_singleton] at h
    subst h
    exact ⟨id, le_rfl, le_rfl, by assumption⟩
  · rcases List.mem_append.1 h with h | h
    · split at h
      · rw [List.mem_singleton] at h
        subst h
        exact ⟨fun _ => by simp only; omega, le_rfl, by simp only; omega,
          Or.inl (by simp only; omega)⟩
      · exact absurd h List.not_mem_nil
    · split at h
      · rw [List.mem_singleton] at h
        subst h
        exact ⟨fun _ => by simp only; omega, by simp only; omega,
          by simp only; omega, Or.inr (by simp only; omega)⟩
      · exact absurd h List.not_mem_nil

theorem leftOver_has (hx : e.1 ≤ x ∧ x < e.1 + e.2)
    (hout : ¬ (a ≤ x ∧ x < a + n)) :
    ∃ e' ∈ Ground.leftOver a n e, e'.1 ≤ x ∧ x < e'.1 + e'.2 := by
  unfold Ground.leftOver
  split
  · exact ⟨e, List.mem_singleton_self e, hx⟩
  · by_cases hlt : x < a
    · refine ⟨(e.1, a - e.1), List.mem_append_left _ ?_, hx.1, ?_⟩
      · rw [if_pos (by omega)]
        exact List.mem_singleton_self _
      · simp only
        omega
    · refine ⟨(a + n, e.1 + e.2 - (a + n)), List.mem_append_right _ ?_, ?_, ?_⟩
      · rw [if_pos (by omega)]
        exact List.mem_singleton_self _
      · simp only
        omega
      · simp only
        omega

theorem leftOver_of_apart (h : e.1 + e.2 ≤ a ∨ a + n ≤ e.1) :
    Ground.leftOver a n e = [e] := by
  rw [Ground.leftOver, if_pos h]

/-- The addresses that stay mapped. -/
theorem mapped_leftOver :
    Mapped (maps.flatMap (Ground.leftOver a n)) x
      ↔ Mapped maps x ∧ ¬ (a ≤ x ∧ x < a + n) := by
  constructor
  · rintro ⟨e', he', h₁, h₂⟩
    obtain ⟨e, he, hin⟩ := List.mem_flatMap.1 he'
    obtain ⟨-, h₃, h₄, h₅⟩ := mem_leftOver hin
    exact ⟨⟨e, he, by omega, by omega⟩, by omega⟩
  · rintro ⟨⟨e, he, hx⟩, hout⟩
    obtain ⟨e', he', hx'⟩ := leftOver_has hx hout
    exact ⟨e', List.mem_flatMap.2 ⟨e, he, he'⟩, hx'⟩

theorem MapsApart.leftOver (h : MapsApart maps) :
    MapsApart (maps.flatMap (Ground.leftOver a n)) := by
  refine ⟨fun e' he' => ?_, List.pairwise_flatMap.2 ⟨fun e he => ?_, ?_⟩⟩
  · obtain ⟨e, he, hin⟩ := List.mem_flatMap.1 he'
    exact (mem_leftOver hin).1 (h.pos e he)
  · unfold Ground.leftOver
    split
    · exact List.pairwise_singleton _ _
    · refine List.pairwise_append.2 ⟨?_, ?_, fun e₁ h₁ e₂ h₂ => ?_⟩
      · split
        · exact List.pairwise_singleton _ _
        · exact List.Pairwise.nil
      · split
        · exact List.pairwise_singleton _ _
        · exact List.Pairwise.nil
      · split at h₁
        · split at h₂
          · rw [List.mem_singleton] at h₁ h₂
            subst h₁ h₂
            simp only
            omega
          · exact absurd h₂ List.not_mem_nil
        · exact absurd h₁ List.not_mem_nil
  · refine h.pairs.imp fun {e₁ e₂} hap e₁' h₁ e₂' h₂ => ?_
    obtain ⟨-, h₃, h₄, -⟩ := mem_leftOver h₁
    obtain ⟨-, h₅, h₆, -⟩ := mem_leftOver h₂
    omega

/-- Two mappings that are not the same are apart. -/
theorem MapsApart.of_ne (h : MapsApart maps) (he : e ∈ maps) (he' : e' ∈ maps)
    (hne : e ≠ e') : e.1 + e.2 ≤ e'.1 ∨ e'.1 + e'.2 ≤ e.1 := by
  have hsym : Std.Symm fun e e' : Nat × Nat =>
      e.1 + e.2 ≤ e'.1 ∨ e'.1 + e'.2 ≤ e.1 := ⟨fun _ _ h => h.symm⟩
  exact List.Pairwise.forall h.pairs he he' hne

/-- What remains when one mapping is taken out is apart from it. -/
theorem MapsApart.of_erase (h : MapsApart maps) (he' : e' ∈ maps)
    (he : e ∈ maps.erase e') : e.1 + e.2 ≤ e'.1 ∨ e'.1 + e'.2 ≤ e.1 := by
  have hpairs := ((List.perm_cons_erase he').pairwise_iff
    fun {_ _} hap => hap.symm).1 h.pairs
  exact ((List.pairwise_cons.1 hpairs).1 e he).symm

end Maps

namespace Space

variable {cfg : Config} {g g' : Ground} {F T : Multiset Part} {p : Part}
  {a n x : Nat}

-- ====================================================== whole mappings

section Raw

variable (h : Space cfg g ({p} + F))
include h

/-- Nobody else has a label of the mapping that a part is. -/
theorem direct_ne (hpos : 0 < p.len) {q : Part} (hq : q ∈ F)
    (hlen : q.len = p.len) : q.base ≠ p.base := by
  obtain ⟨F', rfl⟩ := Multiset.exists_cons_of_mem hq
  have hm := h.holds
  rw [← Multiset.singleton_add] at hm
  intro heq
  exact hm.apart (x := p.base) ⟨le_rfl, by omega⟩ ⟨by omega, by omega⟩

/-- Nothing else is left of a mapping that is a part as a whole. -/
theorem raw_ne (hF : Filled F) {q : Part} (hq : q ∈ F) :
    q.kind ≠ .raw (p.base, p.len) := by
  intro hk
  obtain ⟨q', hq', hk', hpos⟩ := hF q hq _ hk
  have hhouse := h.housed q' (Multiset.mem_add.2 (Or.inr hq'))
  rw [Housed, hk'] at hhouse
  simp only at hhouse
  obtain ⟨F', rfl⟩ := Multiset.exists_cons_of_mem hq'
  have hm := h.holds
  rw [← Multiset.singleton_add] at hm
  exact hm.apart (x := q'.base) ⟨by omega, by omega⟩ ⟨le_rfl, by omega⟩

/-- The parts of others stay housed while only the mapping that a part
is goes away. -/
theorem housed_stays {maps : List (Nat × Nat)} (hpos : 0 < p.len)
    (hF : Filled F) (hstay : ∀ e ∈ g.maps, e ≠ (p.base, p.len) → e ∈ maps)
    {q : Part} (hq : q ∈ F) {m : Mem} :
    Housed { g with mem := m, maps := maps } q := by
  have hold := h.housed q (Multiset.mem_add.2 (Or.inr hq))
  have hqne := h.direct_ne hpos hq
  unfold Housed at hold ⊢
  split at hold
  · next m' hm' =>
    refine ⟨hstay _ hold.1 fun heq => ?_, hold.2⟩
    rw [heq] at hm'
    exact h.raw_ne hF hq hm'
  · exact hold
  · exact hold
  · exact hold
  · exact hold
  · exact hold
  · exact hold
  · exact hold
  · trivial
  · refine hstay _ hold fun heq => ?_
    have heq' := Prod.mk.inj heq
    exact hqne heq'.2 heq'.1

/-- A part that is a whole mapping and not known to the ownership map is
given back. -/
theorem unmap {m : Nat × Nat} (hk : p.kind = .raw m)
    (hmap : (p.base, p.len) ∈ g.maps) (hpos : 0 < n) (hlen : p.len = pageUp n)
    (hF : Filled F) : Space cfg (g.munmap p.base n) F := by
  have hup := pageUp_spec n
  have hdrop := h.drop fun q hq => Or.inl ⟨m, by
    rw [Multiset.mem_singleton.1 hq]
    exact hk⟩
  have hout : ∀ q ∈ F, ∀ x, q.Has x →
      ¬ (p.base ≤ x ∧ x < p.base + pageUp n) := by
    intro q hq x hx hin
    obtain ⟨F', rfl⟩ := Multiset.exists_cons_of_mem hq
    have hm := h.holds
    rw [← Multiset.singleton_add] at hm
    exact hm.apart (x := x) ⟨hin.1, by omega⟩ hx
  have hstay : ∀ e ∈ g.maps, e ≠ (p.base, p.len) →
      e ∈ g.maps.flatMap (Ground.leftOver p.base (pageUp n)) := by
    intro e he hne
    have hap := h.apart.of_ne he hmap hne
    simp only [hlen] at hap
    refine List.mem_flatMap.2 ⟨e, he, ?_⟩
    rw [leftOver_of_apart hap]
    exact List.mem_singleton_self e
  rw [Ground.munmap, if_neg (by omega)]
  refine ⟨hdrop.holds, fun q hq x hx => ?_, fun x hx => ?_, h.apart.leftOver,
    hdrop.tree, hdrop.owned, hdrop.inited, hdrop.links, hdrop.sound,
    fun q hq => ?_, hdrop.spanned⟩
  · exact mapped_leftOver.2 ⟨hdrop.mapped q hq x hx, hout q hq x hx⟩
  · exact h.user x (mapped_leftOver.1 hx).1
  · exact h.housed_stays (by omega) hF hstay hq

-- =========================================================== registration

/-- A mapping is registered as a whole. -/
theorem registerRange {m : Nat × Nat} (hk : p.kind = .raw m)
    (hmap : (p.base, p.len) ∈ g.maps) (ha : p.base % pageSize = 0) (hn : 0 < n)
    (hl : p.len = pageUp n) :
    Space cfg (g.setRange p.base n true)
      ({{ p with kind := .direct true }} + F) := by
  have hpage := pageUp_spec n
  have hlim := h.end_le (p := p) (by simp) (by omega)
  refine h.registerAs (fun y ht => ?_) (by rw [hk]; rfl) rfl
    (by rw [hk]; rfl) hmap (.range h.tree true hn (by omega)) fun x =>
      claimed_pages (p := { p with kind := .direct true }) ha hn hl
        fun _ => trivial
  rw [Tracks, hk] at ht
  exact ht

end Raw

/-- The chunks of an unaligned mapping. -/
theorem claimed_first (hk : p.kind = .direct false) (hpos : 0 < p.len) :
    Claimed {p} x ↔ x / 4096 = p.base / 4096 := by
  constructor
  · rintro ⟨q, hq, y, -, ht, hxy⟩
    rw [Multiset.mem_singleton] at hq
    rw [hq, Tracks, hk] at ht
    exact hxy.symm.trans ht
  · intro hx
    refine ⟨p, Multiset.mem_singleton_self p, p.base, ⟨le_rfl, by omega⟩, ?_,
      hx.symm⟩
    rw [Tracks, hk]

section Single

variable (h : Space cfg g ({p} + F))
include h

/-- The first chunk of a mapping is registered. -/
theorem registerSingle {m : Nat × Nat} (hk : p.kind = .raw m)
    (hmap : (p.base, p.len) ∈ g.maps) (hpos : 0 < p.len) :
    Space cfg (g.setSingleBig p.base true)
      ({{ p with kind := .direct false }} + F) := by
  have hlim := h.end_le (p := p) (by simp) hpos
  refine h.registerAs (fun y ht => ?_) (by rw [hk]; rfl) rfl
    (by rw [hk]; rfl) hmap (.single h.tree true (by omega)) fun x =>
      claimed_first (p := { p with kind := .direct false }) rfl hpos
  rw [Tracks, hk] at ht
  exact ht

/-- No chunk of a mapping is claimed by others. -/
theorem claimed_alone (ha : p.base % pageSize = 0) (hl : p.len % pageSize = 0)
    {y : Nat} (hy : p.Has y) (hxy : x / 4096 = y / 4096) : ¬ Claimed F x := by
  rintro ⟨q, hq, z, hz, -, hzx⟩
  obtain ⟨F', rfl⟩ := Multiset.exists_cons_of_mem hq
  have hm := h.holds
  rw [← Multiset.singleton_add] at hm
  have h₁ := hy.1
  have h₂ := hy.2
  simp only [pageSize] at ha hl
  exact hm.apart (x := z) ⟨by omega, by omega⟩ hz

/-- A direct mapping is taken out of the ownership map. -/
theorem unregisterAs {aligned : Bool} {P : Nat → Prop}
    (hk : p.kind = .direct aligned) (ha : p.base % pageSize = 0)
    (hl : p.len % pageSize = 0) (hreg : Registered g g' P false)
    (hP : ∀ x, Claimed {p} x ↔ P x) :
    Space cfg g' ({{ p with kind := .raw (p.base, p.len) }} + F) := by
  have hspans : g'.spans = g.spans := by rw [hreg.rest]
  have hmaps : g'.maps = g.maps := by rw [hreg.rest]
  have hhouse := h.housed p (by simp)
  rw [Housed, hk] at hhouse
  refine h.relabel (by rw [hreg.rest]) hmaps (by rw [hreg.rest])
    (by rw [hk]; rfl) rfl (fun _ he => hspans ▸ he) ?_ hreg.tree
    (fun x hx => ?_) ?_
  · rw [Housed]
    exact ⟨hmaps ▸ hhouse, le_rfl, le_rfl⟩
  · rw [claimed_raw rfl]
    by_cases hin : P x
    · rw [hreg.inside x hx hin]
      obtain ⟨q, hq, y, hy, -, hxy⟩ := (hP x).2 hin
      rw [Multiset.mem_singleton] at hq
      rw [hq] at hy
      exact iff_of_false (by simp) (h.claimed_alone ha hl hy hxy.symm)
    · rw [hreg.outside x hx hin, h.owned x hx, claimed_add, hP]
      exact or_iff_right hin
  · rw [hspans]
    refine h.spanned.replace fun q hq x hx o ho => ?_
    rw [Multiset.mem_singleton] at hq
    rw [hq, hk] at ho
    cases ho

/-- An aligned mapping is taken out as a whole. -/
theorem unregisterRange (hk : p.kind = .direct true)
    (ha : p.base % pageSize = 0) (hn : 0 < n) (hl : p.len = pageUp n) :
    Space cfg (g.setRange p.base n false)
      ({{ p with kind := .raw (p.base, p.len) }} + F) := by
  have hpage := pageUp_spec n
  have hlim := h.end_le (p := p) (by simp) (by omega)
  refine h.unregisterAs hk ha (by rw [hl]; exact hpage.2.2)
    (.range h.tree false hn (by omega)) fun x => claimed_pages ha hn hl ?_
  intro x
  rw [Tracks, hk]
  trivial

/-- Of an unaligned mapping only the first chunk was known. -/
theorem unregisterSingle (hk : p.kind = .direct false)
    (ha : p.base % pageSize = 0) (hpos : 0 < p.len)
    (hl : p.len % pageSize = 0) :
    Space cfg (g.setSingleBig p.base false)
      ({{ p with kind := .raw (p.base, p.len) }} + F) := by
  have hlim := h.end_le (p := p) (by simp) hpos
  exact h.unregisterAs hk ha hl (.single h.tree false (by omega)) fun x =>
    claimed_first hk hpos

end Single

-- ================================================================ tiles

/-- Parts that are known as a whole, and belong to no span, are cut into
blocks of a region and rewritten. -/
theorem retile {r : Nat} {A A' : Multiset Part} {m : Mem}
    (h : Space cfg g (A + F))
    (hA : ∀ p ∈ A, p.kind = .direct true ∨ p.kind = .tile r)
    (hA' : ∀ p ∈ A', p.kind = .tile r)
    (hcover : ∀ x, cover A' x = cover A x) (hm : Holds m (A' + F)) :
    Space cfg { g with mem := m } (A' + F) := by
  have hknown : ∀ p ∈ A, p.kind.isBlock = false ∧ (∀ x, Tracks p x)
      ∧ p.kind.origin = none := by
    intro p hp
    rcases hA p hp with hk | hk <;>
      exact ⟨by rw [hk]; rfl, fun x => by rw [Tracks, hk]; trivial,
        by rw [hk]; rfl⟩
  have htile : ∀ p ∈ A', p.kind.isBlock = false ∧ (∀ x, Tracks p x)
      ∧ p.kind.origin = none := by
    intro p hp
    have hk := hA' p hp
    exact ⟨by rw [hk]; rfl, fun x => by rw [Tracks, hk]; trivial,
      by rw [hk]; rfl⟩
  refine h.recut hm rfl rfl rfl ?_ (fun _ ha => ha)
    ⟨fun p hp x hx => ?_, fun q hq x hx _ => ?_⟩
    (fun p hp hb => ?_) (fun p hp => ?_) fun p hp => ?_
  · rw [headers_of_not fun p hp => (hknown p hp).1,
      headers_of_not fun p hp => (htile p hp).1]
  · have hpos := cover_pos.2 ⟨p, hp, hx⟩
    rw [hcover] at hpos
    obtain ⟨q, hq, hqx⟩ := cover_pos.1 hpos
    exact ⟨q, hq, hqx, fun _ => (hknown q hq).2.1 x⟩
  · have hpos := cover_pos.2 ⟨q, hq, hx⟩
    rw [← hcover] at hpos
    obtain ⟨p, hp, hpx⟩ := cover_pos.1 hpos
    exact ⟨p, hp, hpx, fun _ => (htile p hp).2.1 x,
      (htile p hp).2.2.trans (hknown q hq).2.2.symm⟩
  · rw [(htile p hp).1] at hb
    cases hb
  · rw [Sound, hA' p hp]
    trivial
  · rw [Housed, hA' p hp]
    trivial

-- ================================================================= growth

/-- An unaligned mapping grows into unmapped pages behind it. -/
theorem remap (h : Space cfg g ({p} + F)) (hk : p.kind = .direct false)
    (hpos : 0 < p.len) (hlt : p.len < n)
    (hlim : p.base + n ≤ userLimit)
    (hfree : Unmapped g.maps (p.base + p.len) (n - p.len)) (hF : Filled F) :
    Space cfg { g with
        mem := Mem.zero g.mem (p.base + p.len) (n - p.len)
        maps := (p.base, n) :: g.maps.erase (p.base, p.len) }
      ({⟨.direct false, p.base, n,
        Mem.zero g.mem (p.base + p.len) (n - p.len)⟩} + F) := by
  have hhouse := h.housed p (by simp)
  rw [Housed, hk] at hhouse
  have hmapped : ∀ q ∈ F, ∀ x, q.Has x →
      ¬ (p.base ≤ x ∧ x < p.base + n) := by
    intro q hq x hx hin
    by_cases hx' : x < p.base + p.len
    · obtain ⟨F', rfl⟩ := Multiset.exists_cons_of_mem hq
      have hm := h.holds
      rw [← Multiset.singleton_add] at hm
      exact hm.apart (x := x) ⟨hin.1, hx'⟩ hx
    · obtain ⟨e, he, h₁, h₂⟩ := h.mapped q (Multiset.mem_add.2 (Or.inr hq)) x
        hx
      rcases hfree e he with hf | hf <;> omega
  have hstay : ∀ e ∈ g.maps, e ≠ (p.base, p.len) →
      e ∈ (p.base, n) :: g.maps.erase (p.base, p.len) := fun e he hne =>
    List.mem_cons_of_mem _ ((List.mem_erase_of_ne hne).2 he)
  refine ⟨⟨fun x => ?_, fun q hq x hx => ?_⟩, fun q hq x hx => ?_,
    fun x hx => ?_, ⟨fun e he => ?_, List.pairwise_cons.2 ⟨fun e he => ?_,
      h.apart.pairs.sublist List.erase_sublist⟩⟩, h.tree, fun x hx => ?_, ?_,
    fun q hq hb => ?_, fun q hq => ?_, fun q hq => ?_, ?_⟩
  · rw [cover_add, cover_singleton]
    have hone := h.holds.once x
    rw [cover_add] at hone
    split
    · next hx =>
      have hnone : cover F x = 0 := by
        by_contra hne
        obtain ⟨q, hq, hqx⟩ := cover_pos.1 (Nat.pos_of_ne_zero hne)
        exact hmapped q hq x hqx hx
      omega
    · omega
  · rcases mem_singleton_add.1 hq with rfl | hq
    · rfl
    · refine (Mem.zero_apply_of_not fun hin => hmapped q hq x hx ?_).trans
        (h.holds.agree q (Multiset.mem_add.2 (Or.inr hq)) x hx)
      omega
  · rcases mem_singleton_add.1 hq with rfl | hq
    · exact ⟨(p.base, n), List.mem_cons_self .., hx⟩
    · obtain ⟨e, he, hex⟩ := h.mapped q (Multiset.mem_add.2 (Or.inr hq)) x hx
      refine ⟨e, hstay e he fun heq => hmapped q hq x hx ?_, hex⟩
      rw [heq] at hex
      simp only at hex
      omega
  · obtain ⟨e, he, hex⟩ := hx
    rcases List.mem_cons.1 he with rfl | he
    · simp only at hex
      have hbase := (h.user p.base ⟨_, hhouse, le_rfl, by simp only; omega⟩).1
      omega
    · exact h.user x ⟨e, List.mem_of_mem_erase he, hex⟩
  · rcases List.mem_cons.1 he with rfl | he
    · show 0 < n
      omega
    · exact h.apart.pos e (List.mem_of_mem_erase he)
  · have he' := List.mem_of_mem_erase he
    have hap := h.apart.of_erase hhouse he
    have hpos' := h.apart.pos e he'
    simp only at hap ⊢
    rcases hfree e he' with hf | hf <;> omega
  · refine (h.owned x hx).trans ?_
    rw [claimed_add, claimed_add, claimed_first hk hpos,
      claimed_first rfl (by simp only; omega)]
  · have hold := h.inited
    rw [headers_add, headers_singleton_of_not (by rw [hk]; rfl)] at hold
    rw [headers_add, headers_singleton_of_not rfl]
    exact hold
  · rcases mem_singleton_add.1 hq with rfl | hq
    · cases hb
    · exact h.links q (Multiset.mem_add.2 (Or.inr hq)) hb
  · rcases mem_singleton_add.1 hq with rfl | hq
    · exact .plain rfl
    · exact h.sound q (Multiset.mem_add.2 (Or.inr hq))
  · rcases mem_singleton_add.1 hq with rfl | hq
    · exact List.mem_cons_self ..
    · exact h.housed_stays hpos hF hstay hq
  · refine h.spanned.replace fun q hq x hx o ho => ?_
    rw [Multiset.mem_singleton] at hq
    rw [hq, hk] at ho
    cases ho

end Space

end RsMalloc
