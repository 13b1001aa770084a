/-
A span that grows in place.

The block that is alone in a span owns all of it. When the page
allocator lets the span grow, the bytes behind it come as a part of
their own that belongs to the span and is not yet registered
(`Space.extend`). Registering it makes it a rest of the span
(`Space.registerMore`), and the block takes the rest in together with
its new record and class (`Space.swallow`).
-/
import RsMalloc.Ground.Space

namespace RsMalloc

namespace Space

variable {cfg : Config} {g : Ground} {F : Multiset Part} {p q : Part}
  {o : Origin} {m : Mem} {n : Nat}

-- ================================================================ spans

/-- The span of a block that ends where memory of an arena begins has
exactly the bytes of the block. -/
theorem span_of_solo {k : Nat × Nat} (h : Space cfg g ({p} + ({q} + F)))
    (hp : p.kind = .solo o) (hstart : p.base = o.start)
    (hq : q.kind = .raw k) (hbase : q.base = p.base + p.len)
    (hpos : 0 < q.len) : ⟨o, p.len⟩ ∈ g.spans := by
  obtain ⟨n, hn, -, hle⟩ := (h.housed p (by simp)).within
    (o := o) (by rw [hp]; rfl)
  rcases Nat.lt_or_ge p.len n with hlt | hge
  · -- the first byte behind the block would belong to the span
    have hraw : Spanned g.spans ({q} + ({p} + F)) := by
      rw [add_left_comm]
      exact h.spanned
    have hheld : Holds g.mem ({q} + ({p} + F)) := by
      rw [add_left_comm]
      exact h.holds
    have hout := filled_apart (g := g) (x := q.base) hraw hheld hq hn
      ⟨le_rfl, by omega⟩
    exact absurd ⟨by simp only; omega, by simp only; omega⟩ hout
  · have heq : n = p.len := by omega
    rw [← heq]
    exact hn

/-- Only one span starts where a block that is alone does. -/
theorem span_unique {spans : List Span} {e : Span}
    (hs : spans.Pairwise Span.Apart) (hn : ⟨o, n⟩ ∈ spans) (hpos : 0 < n)
    (he : e ∈ spans) (hstart : e.origin.start = o.start)
    (hlen : 0 < e.len) : e = ⟨o, n⟩ := by
  by_contra hne
  have hsym : Std.Symm Span.Apart := ⟨fun _ _ h x hx hx' => h x hx' hx⟩
  exact hs.forall he hn hne o.start ⟨hstart.le, by omega⟩
    ⟨le_rfl, by simp only; omega⟩

/-- The spans after one of them has grown. -/
theorem mem_regrant {a : Nat} {e : Span} :
    e ∈ (g.regrant a n).spans ↔ ∃ e₀ ∈ g.spans,
      (e₀.origin.start = a ∧ 0 < e₀.len ∧ e = ⟨e₀.origin, n⟩
        ∨ ¬ (e₀.origin.start = a ∧ 0 < e₀.len) ∧ e = e₀) := by
  simp only [Ground.regrant, List.mem_map]
  refine exists_congr fun e₀ => and_congr_right fun _ => ?_
  split
  · next h => simp [h, eq_comm]
  · next h =>
    constructor
    · rintro rfl
      exact Or.inr ⟨h, rfl⟩
    · rintro (⟨hs, hl, -⟩ | ⟨-, rfl⟩)
      · exact absurd ⟨hs, hl⟩ h
      · rfl

/-- A part that lies in a span lies in it after some span has grown. -/
theorem within_regrant {a k : Nat} {r : Part} {o' : Origin}
    (hold : ∀ e ∈ g.spans, e.origin.start = a → 0 < e.len → e.len ≤ k)
    (h : Within g.spans o' r) : Within (g.regrant a k).spans o' r := by
  obtain ⟨n, hn, hlo, hhi⟩ := h
  by_cases hgrown : o'.start = a ∧ 0 < n
  · refine ⟨k, mem_regrant.2 ⟨_, hn, Or.inl ⟨hgrown.1, hgrown.2, rfl⟩⟩, hlo,
      ?_⟩
    have hle := hold _ hn hgrown.1 hgrown.2
    simp only at hle
    omega
  · exact ⟨n, mem_regrant.2 ⟨_, hn, Or.inr ⟨hgrown, rfl⟩⟩, hlo, hhi⟩

-- =============================================================== growing

section Extend

variable {k : Nat × Nat} {r : Part} {o' : Origin}
  (h : Space cfg g ({p} + ({q} + F))) (hp : p.kind = .solo o)
  (hstart : p.base = o.start) (hlen : 0 < p.len) (hq : q.kind = .raw k)
  (hbase : q.base = p.base + p.len) (hpos : 0 < q.len)
include h hp hstart hlen hq hbase hpos

/-- The span that grows is that of the block. -/
theorem extend_only {e : Span} (he : e ∈ g.spans)
    (hs : e.origin.start = p.base) (hl : 0 < e.len) : e = ⟨o, p.len⟩ :=
  span_unique h.spanned.apart (h.span_of_solo hp hstart hq hbase hpos) hlen
    he (hs.trans hstart) hl

theorem extend_within (hw : Within g.spans o' r) :
    Within (g.regrant p.base (p.len + q.len)).spans o' r := by
  refine within_regrant (fun e he hs hl => ?_) hw
  rw [h.extend_only hp hstart hlen hq hbase hpos he hs hl]
  exact Nat.le_add_right _ _

omit hq hpos in
/-- A part that is all of a span is not in the span of the block, which
has the block. -/
theorem extend_whole (hr : r ∈ ({p} + F : Multiset Part))
    (hk : r.kind = .fresh o' ∨ r.kind = .span o')
    (hw : ⟨o', r.len⟩ ∈ g.spans ∧ r.base = o'.start) :
    ⟨o', r.len⟩ ∈ (g.regrant p.base (p.len + q.len)).spans
      ∧ r.base = o'.start := by
  obtain ⟨hmem, hrb⟩ := hw
  refine ⟨mem_regrant.2 ⟨_, hmem, Or.inr ⟨?_, rfl⟩⟩, hrb⟩
  rintro ⟨hs, hl⟩
  rcases mem_singleton_add.1 hr with rfl | hr
  · rw [hp] at hk
    rcases hk with hk | hk <;> cases hk
  · obtain ⟨F', rfl⟩ := Multiset.exists_cons_of_mem hr
    have hheld := h.holds
    rw [← Multiset.singleton_add, add_left_comm ({q} : Multiset Part)]
      at hheld
    simp only at hs hl
    exact hheld.apart (x := p.base) ⟨le_rfl, by omega⟩ ⟨by omega, by omega⟩

/-- The other parts stay where they were. -/
theorem extend_housed (hr : r ∈ ({p} + F : Multiset Part)) :
    Housed (g.regrant p.base (p.len + q.len)) r := by
  have hold := h.housed r (by
    rw [add_left_comm]
    exact Multiset.mem_add.2 (Or.inr hr))
  have hwithin : ∀ {o' : Origin}, Within g.spans o' r →
      Within (g.regrant p.base (p.len + q.len)).spans o' r :=
    h.extend_within hp hstart hlen hq hbase hpos
  have hwhole : ∀ {o' : Origin}, (r.kind = .fresh o' ∨ r.kind = .span o') →
      _ := h.extend_whole hp hstart hlen hbase hr
  unfold Housed at hold ⊢
  split at hold
  · exact hold
  · next hk => exact hwhole (Or.inl hk) hold
  · next hk => exact hwhole (Or.inr hk) hold
  · exact ⟨hwithin hold.1, hold.2⟩
  · exact ⟨hwithin hold.1, hold.2⟩
  · exact ⟨hwithin hold.1, hold.2⟩
  · exact hwithin hold
  · exact hwithin hold
  · trivial
  · exact hold

/-- The bytes a span has afterwards: its own, or those behind the
block. -/
theorem extend_has {e : Span} (he : e ∈ g.spans) {x : Nat}
    (hx : (if e.origin.start = p.base ∧ 0 < e.len
      then { e with len := p.len + q.len } else e : Span).Has x) :
    e.Has x ∨ (e = ⟨o, p.len⟩ ∧ q.Has x) := by
  split at hx
  · next hs =>
    have heq := h.extend_only hp hstart hlen hq hbase hpos he hs.1 hs.2
    have h₁ := hx.1
    have h₂ := hx.2
    subst heq
    simp only at h₁ h₂
    by_cases hlt : x < o.start + p.len
    · exact Or.inl ⟨h₁, hlt⟩
    · exact Or.inr ⟨rfl, by omega, by omega⟩
  · exact Or.inl hx

/-- The grown span is filled by the block and the bytes behind it, and
meets no other span. -/
theorem extend_spanned : Spanned (g.regrant p.base (p.len + q.len)).spans
    ({{ q with kind := .more o }} + ({p} + F)) := by
  have hspanned := h.spanned
  have hholds := h.holds
  rw [add_left_comm] at hspanned hholds
  refine ⟨fun e he x hx => ?_, ?_⟩
  · obtain ⟨e₀, he₀, ⟨hs, hl, rfl⟩ | ⟨-, rfl⟩⟩ := mem_regrant.1 he
    · have heq := h.extend_only hp hstart hlen hq hbase hpos he₀ hs hl
      subst heq
      have h₁ := hx.1
      have h₂ := hx.2
      simp only at h₁ h₂
      by_cases hlt : x < p.base + p.len
      · exact ⟨p, by simp, by rw [hp]; rfl, by omega, hlt⟩
      · exact ⟨_, mem_singleton_add_self, rfl, by simp only; omega,
          by simp only; omega⟩
    · obtain ⟨r, hr, hro, hrx⟩ := hspanned.filled e he₀ x hx
      rcases mem_singleton_add.1 hr with rfl | hr
      · rw [hq] at hro
        cases hro
      · exact ⟨r, Multiset.mem_add.2 (Or.inr hr), hro, hrx⟩
  · have hout : ∀ e ∈ g.spans, ∀ x, q.Has x → ¬ e.Has x := fun e he x hx =>
      filled_apart (g := g) hspanned hholds hq he hx
    refine List.pairwise_map.2 (h.spanned.apart.imp_of_mem ?_)
    intro a b ha hb hab x hxa hxb
    rcases h.extend_has hp hstart hlen hq hbase hpos ha hxa with
      hea | ⟨rfl, hqx⟩
    · rcases h.extend_has hp hstart hlen hq hbase hpos hb hxb with
        heb | ⟨-, hqx⟩
      · exact hab x hea heb
      · exact hout a ha x hqx hea
    · rcases h.extend_has hp hstart hlen hq hbase hpos hb hxb with
        heb | ⟨rfl, -⟩
      · exact hout b hb x hqx heb
      · exact hab o.start ⟨le_rfl, by simp only; omega⟩
          ⟨le_rfl, by simp only; omega⟩

/-- The page allocator lets the span of a block grow. -/
theorem extend : Space cfg (g.regrant p.base (p.len + q.len))
    ({{ q with kind := .more o }} + ({p} + F)) := by
  have hspan := h.span_of_solo hp hstart hq hbase hpos
  have hnew : ⟨o, p.len + q.len⟩ ∈ (g.regrant p.base (p.len + q.len)).spans :=
    mem_regrant.2 ⟨_, hspan, Or.inl ⟨hstart.symm, hlen, rfl⟩⟩
  have hspanned := h.extend_spanned hp hstart hlen hq hbase hpos
  have hhoused : ∀ r ∈ ({p} + F : Multiset Part), _ := fun r hr =>
    h.extend_housed hp hstart hlen hq hbase hpos hr
  rw [add_left_comm] at h
  refine ⟨?_, fun r hr x hx => ?_, h.user, h.apart, h.tree, fun x hx => ?_, ?_,
    fun r hr hb => ?_, fun r hr => ?_, fun r hr => ?_, hspanned⟩
  · exact h.holds.update rfl rfl (fun _ _ => rfl) fun x hx =>
      h.holds.agree q (by simp) x hx
  · rcases mem_singleton_add.1 hr with rfl | hr
    · exact h.mapped q (by simp) x hx
    · exact h.mapped r (Multiset.mem_add.2 (Or.inr hr)) x hx
  · refine (h.owned x hx).trans ((claimed_raw hq).trans ?_)
    refine Iff.symm (claimed_untracked ?_)
    exact fun _ ht => ht
  · have hold := h.inited
    rw [headers_add, headers_singleton_of_not (by rw [hq]; rfl)] at hold
    rw [headers_add, headers_singleton_of_not rfl]
    exact hold
  · rcases mem_singleton_add.1 hr with rfl | hr
    · cases hb
    · exact h.links r (Multiset.mem_add.2 (Or.inr hr)) hb
  · rcases mem_singleton_add.1 hr with rfl | hr
    · exact .plain rfl
    · exact h.sound r (Multiset.mem_add.2 (Or.inr hr))
  · rcases mem_singleton_add.1 hr with rfl | hr
    · refine ⟨⟨_, hnew, ?_, ?_⟩, ?_⟩ <;> simp only <;> omega
    · exact hhoused r hr

end Extend

/-- The bytes behind a block are registered with its span. -/
theorem registerMore (h : Space cfg g ({q} + ({p} + F)))
    (hp : p.kind = .solo o) (hq : q.kind = .more o)
    (ha : p.base % pageSize = 0) (hbase : q.base = p.base + p.len)
    (hlen : p.len + q.len = pageUp n) (hn : 0 < n) :
    Space cfg (g.setRange p.base n true)
      ({{ q with kind := .rest o }} + ({p} + F)) := by
  have hpage := pageUp_spec n
  simp only [pageSize] at ha hpage
  have hhouse := h.housed q (by simp)
  rw [Housed, hq] at hhouse
  have hlim : p.base + n ≤ 2 ^ 47 := by
    rcases Nat.eq_zero_or_pos q.len with hz | hpos
    · have := h.end_le (p := p) (by simp) (by omega)
      omega
    · have := h.end_le (p := q) (by simp) hpos
      omega
  have hclaim : ∀ x, Claimed ({{ q with kind := .rest o }} + ({p} + F)) x
      ↔ Claimed ({q} + ({p} + F)) x ∨ p.base / 4096 ≤ x / 4096
        ∧ x / 4096 ≤ (p.base + (n - 1)) / 4096 := by
    intro x
    have hnone : ∀ y, ¬ Tracks q y := by
      intro y ht
      rw [Tracks, hq] at ht
      exact ht
    have hall : Claimed ({{ q with kind := .rest o }} + {p}) x
        ↔ Claimed {p} x ∨ p.base / 4096 ≤ x / 4096
          ∧ x / 4096 ≤ (p.base + (n - 1)) / 4096 := by
      constructor
      · rintro ⟨r, hr, y, ⟨h₁, h₂⟩, -, hxy⟩
        refine Or.inr ?_
        rcases mem_singleton_pair.1 hr with rfl | rfl
        · simp only at h₁ h₂
          omega
        · omega
      · rintro (hc | ⟨h₁, h₂⟩)
        · exact claimed_add.2 (Or.inr hc)
        · by_cases hlt : x / 4096 * 4096 < p.base + p.len
          · refine ⟨p, by simp, x / 4096 * 4096, ⟨by omega, hlt⟩, ?_, by omega⟩
            rw [Tracks, hp]
            trivial
          · exact ⟨{ q with kind := .rest o }, by simp, x / 4096 * 4096,
              ⟨by simp only; omega, by simp only; omega⟩, trivial, by omega⟩
    rw [← add_assoc, claimed_add, hall, claimed_untracked hnone, claimed_add]
    tauto
  have hreg := Registered.range h.tree true hn
    (show p.base + n ≤ 2 ^ 56 by omega)
  refine h.relabel rfl rfl rfl (by rw [hq]; rfl) rfl (fun _ he => he) hhouse
    hreg.tree (fun x hx => hreg.owned h hclaim hx) (h.spanned.replace fun r hr x hx o' ho => ?_)
  rw [Multiset.mem_singleton] at hr
  subst hr
  rw [hq] at ho
  exact ⟨_, Multiset.mem_singleton_self _, hx, ho⟩

/-- A block takes in the rest behind it. -/
theorem swallow {c : Nat} (h : Space cfg g ({q} + ({p} + F)))
    (hp : p.kind = .solo o) (hq : q.kind = .rest o)
    (hbase : q.base = p.base + p.len) (hlen : 0 < p.len) (hpos : 0 < q.len)
    (hm : Mem.Only p.base p.len g.mem m)
    (hlink : Linked g ⟨.solo o, p.base, p.len + q.len, m⟩)
    (hok : BlockOk cfg c ⟨.solo o, p.base, p.len + q.len, m⟩) :
    Space cfg { g with mem := m }
      ({⟨.solo o, p.base, p.len + q.len, m⟩} + F) := by
  have hwp := (h.housed p (by simp)).within (o := o) (by rw [hp]; rfl)
  have hwq := (h.housed q (by simp)).within (o := o) (by rw [hq]; rfl)
  have hap := h.spanned.apart
  rw [add_left_comm, ← add_assoc] at h
  refine h.recutOne ?_ rfl rfl rfl ?_ (fun _ ha => ha) (.join hbase rfl rfl
    (fun x _ => ⟨by rw [Tracks, hp]; trivial, by rw [Tracks, hq]; trivial⟩)
    (fun _ => ⟨fun _ => trivial, by rw [hp]⟩)
    fun _ => ⟨fun _ => trivial, by rw [hq]; rfl⟩) (fun _ => hlink)
    (.block hok) (within_join hap hwp hwq hlen hpos hbase rfl rfl)
  · refine h.holds.replace (fun x => ?_) (fun x hx => ?_) fun r hr x hx => ?_
    · rw [cover_add, cover_singleton, cover_singleton, cover_singleton]
      split
      · next hx =>
        have h₁ := hx.1
        have h₂ := hx.2
        simp only at h₁ h₂
        by_cases hlt : x < p.base + p.len
        · rw [if_pos (c := p.Has x) ⟨h₁, hlt⟩]
          exact Nat.le_add_right _ _
        · rw [if_pos (c := q.Has x) ⟨by omega, by omega⟩]
          exact Nat.le_add_left _ _
      · exact Nat.zero_le _
    · refine hm x fun hw => ?_
      rw [cover_add, cover_singleton, if_pos (c := p.Has x) hw] at hx
      omega
    · rw [Multiset.mem_singleton] at hr
      subst hr
      rfl
  · rw [headers_add, headers_singleton_of_not (p := q) (by rw [hq]; rfl),
      headers_singleton_of_block (p := p) (by rw [hp]; rfl),
      headers_singleton_of_block rfl, add_zero]
    simp only [header, hp]

end Space

end RsMalloc
