import DebianInstaller.Partman.Recipes

/-!
# What `expand_scheme` deals out

As long as a hundred times the sizes fit into 63 bits, nothing wraps and the
script computes what it means to: every round gives each partition its share of
what is left, rounded down, and takes a partition that reaches its maximum out
of the distribution. So the sum of the sizes never exceeds the free space, every
round that changes anything brings the loop nearer to its end, and when nothing
changes any more, no share amounts to a megabyte.

Without the bound the products longLong around, and `expandScheme_overspends` shows
two partitions that together get more than there is.
-/

namespace DebianInstaller.Partman

open Text

variable {freeSize : Int} {l : Line} {scheme : List Line}

theorem foldl_wrap {α : Type*} {f : α → Int} : ∀ (l : List α) (a : Int), 0 ≤ a →
    (∀ x ∈ l, 0 ≤ f x) → a + (l.map f).sum < 2 ^ 63 →
    l.foldl (fun a x => longLong (a + f x)) a = a + (l.map f).sum := by
  intro l
  induction l with
  | nil => intro a _ _ _; simp
  | cons x l ih =>
      intro a ha hf hlt
      have hx := hf x (by simp)
      have hrest : 0 ≤ (l.map f).sum :=
        List.sum_nonneg fun y hy => by
          obtain ⟨z, hz, rfl⟩ := List.mem_map.mp hy
          exact hf z (by simp [hz])
      rw [List.map_cons, List.sum_cons] at hlt ⊢
      rw [List.foldl_cons, longLong_eq (by omega) (by omega),
        ih _ (by omega) (fun y hy => hf y (by simp [hy])) (by omega)]
      omega

/-! ## The invariant of the loop -/

/-- The space that is dealt out so far. -/
def sizes (scheme : List Line) : Int := (scheme.map Line.min).sum

/-- The sum of the weights. -/
def weights (scheme : List Line) : Int := (scheme.map Line.factor).sum

/-- The sizes add up to no more than there is, and the weights to no more than
a hundred. -/
structure Fits (freeSize : Int) (scheme : List Line) : Prop where
  min_nonneg : ∀ l ∈ scheme, 0 ≤ l.min
  factor_nonneg : ∀ l ∈ scheme, 0 ≤ l.factor
  max_ok : ∀ l ∈ scheme, l.max = -1 ∨ l.min ≤ l.max
  weights_le : weights scheme ≤ 100
  sizes_le : sizes scheme ≤ freeSize

/-- The share of one line in what is left. -/
def share (freeSize : Int) (scheme : List Line) (l : Line) : Int :=
  (freeSize - sizes scheme) * l.factor / weights scheme

/-- What a round does to a line: it gets its share, or it is filled up and
drops out. -/
inductive Grew (extra : Int) (l l' : Line) : Prop where
  | grown (h : l' = { l with min := l.min + extra })
      (hmax : l.max = -1 ∨ l.min + extra ≤ l.max)
  | filled (h : l' = { l with min := l.max, factor := 0 }) (hmax : l.max ≠ -1)
      (hlt : l.max < l.min + extra)

/-- A line with its recipe: only the size and the weight change, the size stays
within its bounds, and the weight is given up only at the maximum. -/
structure Grown (p l : Line) : Prop where
  max : l.max = p.max
  tail : l.tail = p.tail
  lower : p.min ≤ l.min
  upper : p.max ≠ -1 → l.min ≤ p.max
  weight : l.factor = p.factor ∨ l.factor = 0 ∧ l.min = p.max

/-- What a line still has to do: drop out, or grow. -/
def cost (l : Line) : Int := (if 0 < l.factor then 1 else 0) - l.min

section Line

variable {extra : Int} {p l l' : Line}

theorem Grew.bounds (h : Grew extra l l') (hextra : 0 ≤ extra)
    (hmax : l.max = -1 ∨ l.min ≤ l.max) :
    l.min ≤ l'.min ∧ l'.min ≤ l.min + extra ∧ (l'.max = -1 ∨ l'.min ≤ l'.max) ∧
      (l'.factor = l.factor ∨ l'.factor = 0) := by
  rcases h with ⟨rfl, hm⟩ | ⟨rfl, hm, hlt⟩
  · exact ⟨by simp [hextra], le_refl _, hm, .inl rfl⟩
  · exact ⟨hmax.resolve_left hm, hlt.le, .inr (le_refl _), .inr rfl⟩

theorem Grew.grown_of (h : Grew extra l l') (hextra : 0 ≤ extra)
    (hzero : l.factor = 0 → extra = 0) (hg : Grown p l) : Grown p l' := by
  rcases h with ⟨rfl, hm⟩ | ⟨rfl, hm, hlt⟩
  · have hlow := hg.lower
    have hmax := hg.max
    refine ⟨hg.max, hg.tail, ?_, fun hp => ?_, ?_⟩
    · show p.min ≤ l.min + extra
      omega
    · show l.min + extra ≤ p.max
      omega
    · rcases hg.weight with hw | ⟨hw, hl⟩
      · exact .inl hw
      · refine .inr ⟨hw, ?_⟩
        rw [hzero hw, Int.add_zero]
        exact hl
  · refine ⟨hg.max, hg.tail, ?_, fun _ => hg.max.le, .inr ⟨rfl, hg.max⟩⟩
    have hlow := hg.lower
    have hup := hg.upper (by rw [← hg.max]; exact hm)
    have hmax := hg.max
    show p.min ≤ l.max
    omega

theorem Grew.cost_lt (h : Grew extra l l') (hextra : 0 ≤ extra)
    (hzero : l.factor = 0 → extra = 0) (hfac : 0 ≤ l.factor)
    (hmax : l.max = -1 ∨ l.min ≤ l.max) :
    cost l' ≤ cost l ∧ (l' ≠ l → cost l' < cost l) := by
  rcases h with ⟨rfl, hm⟩ | ⟨rfl, hm, hlt⟩
  · have hc : cost { l with min := l.min + extra } = cost l - extra := by
      simp only [cost]
      omega
    rw [hc]
    refine ⟨by omega, fun hne => ?_⟩
    have : extra ≠ 0 := fun h0 => hne (by rw [h0, Int.add_zero])
    omega
  · have hpos : 0 < l.factor := by
      by_contra hn
      have := hzero (by omega)
      omega
    have hc : cost { l with min := l.max, factor := 0 } = - l.max := by
      simp [cost]
    have hc' : cost l = 1 - l.min := by
      simp [cost, hpos]
    omega

end Line

theorem sum_map_nonneg {f : Line → Int} (h : ∀ l ∈ scheme, 0 ≤ f l) : 0 ≤ (scheme.map f).sum :=
  List.sum_nonneg fun y hy => by
    obtain ⟨l, hl, rfl⟩ := List.mem_map.mp hy
    exact h l hl

theorem sizes_nonneg (h : ∀ l ∈ scheme, 0 ≤ l.min) : 0 ≤ sizes scheme := sum_map_nonneg h

theorem le_sum_map {f : Line → Int} (h : ∀ l ∈ scheme, 0 ≤ f l) (hl : l ∈ scheme) :
    f l ≤ (scheme.map f).sum :=
  List.single_le_sum (fun y hy => by
    obtain ⟨k, hk, rfl⟩ := List.mem_map.mp hy
    exact h k hk) _ (List.mem_map.mpr ⟨l, hl, rfl⟩)

section Round

variable {freeSize : Int} {scheme : List Line} (h : Fits freeSize scheme)

include h

theorem Fits.factorSum_eq : factorSum scheme = weights scheme := by
  have hle : (scheme.map Line.factor).sum ≤ 100 := h.weights_le
  rw [factorSum, foldl_wrap scheme 0 (by omega) h.factor_nonneg (by omega), Int.zero_add]
  rfl

theorem Fits.sum_share_le :
    (scheme.map (share freeSize scheme)).sum ≤ freeSize - sizes scheme := by
  have hleft : 0 ≤ freeSize - sizes scheme := Int.sub_nonneg.mpr h.sizes_le
  have hmap : scheme.map (share freeSize scheme) = (scheme.map Line.factor).map
      fun f => (freeSize - sizes scheme) * f / weights scheme := by
    rw [List.map_map]
    rfl
  rw [hmap]
  rcases (sum_map_nonneg h.factor_nonneg).lt_or_eq with hpos | hzero
  · exact Shares.sum_shares_le hleft hpos le_rfl
  · rw [show weights scheme = 0 from hzero.symm]
    simp only [Int.ediv_zero, List.map_map]
    refine le_of_eq_of_le ?_ hleft
    exact List.sum_eq_zero fun y hy => by
      obtain ⟨_, _, rfl⟩ := List.mem_map.mp hy
      rfl

theorem Fits.share_nonneg (hl : l ∈ scheme) : 0 ≤ share freeSize scheme l :=
  Int.ediv_nonneg (Int.mul_nonneg (Int.sub_nonneg.mpr h.sizes_le) (h.factor_nonneg l hl))
    (sum_map_nonneg h.factor_nonneg)

theorem Fits.share_le (hl : l ∈ scheme) : share freeSize scheme l ≤ freeSize - sizes scheme :=
  (le_sum_map (fun _ hk => h.share_nonneg hk) hl).trans h.sum_share_le

variable (hfree : 100 * freeSize < 2 ^ 63)

include hfree

theorem Fits.minSize_eq : minSize scheme = sizes scheme := by
  have h₁ : (scheme.map Line.min).sum ≤ freeSize := h.sizes_le
  have h₂ : 0 ≤ (scheme.map Line.min).sum := sizes_nonneg h.min_nonneg
  rw [minSize, foldl_wrap scheme 0 (by omega) h.min_nonneg (by omega), Int.zero_add]
  rfl

theorem Fits.grew (hl : l ∈ scheme) :
    Grew (share freeSize scheme l) l
      (grow (weights scheme) (freeSize - sizes scheme) l) := by
  have hmin := h.min_nonneg l hl
  have hfac := h.factor_nonneg l hl
  have hfacle : l.factor ≤ weights scheme := le_sum_map h.factor_nonneg hl
  have hle := h.sizes_le
  have hsz := sizes_nonneg h.min_nonneg
  have hmle : l.min ≤ sizes scheme := le_sum_map h.min_nonneg hl
  have hs₁ := h.share_nonneg hl
  have hs₂ := h.share_le hl
  have hmax := h.max_ok l hl
  have hw := h.weights_le
  -- Nothing wraps, and the quotient is the share.
  have hprod₁ : 0 ≤ (freeSize - sizes scheme) * l.factor :=
    Int.mul_nonneg (by omega) hfac
  have hprod₂ : (freeSize - sizes scheme) * l.factor ≤ 100 * freeSize :=
    calc (freeSize - sizes scheme) * l.factor ≤ freeSize * 100 :=
          Int.mul_le_mul (by omega) (by omega) hfac (by omega)
      _ = 100 * freeSize := Int.mul_comm _ _
  have hnew : (if weights scheme = 0 then l.min
      else longLong (l.min + Int.tdiv (longLong ((freeSize - sizes scheme) * l.factor))
        (weights scheme))) = l.min + share freeSize scheme l := by
    split
    · next hz => rw [share, hz, Int.ediv_zero, Int.add_zero]
    · have hin : longLong ((freeSize - sizes scheme) * l.factor) =
          (freeSize - sizes scheme) * l.factor := longLong_eq (by omega) (by omega)
      rw [hin, Int.tdiv_eq_ediv_of_nonneg hprod₁]
      show longLong (l.min + share freeSize scheme l) = _
      exact longLong_eq (by omega) (by omega)
  have hfact : (if weights scheme = 0 ∧ l.factor < 0 then 0 else l.factor) = l.factor :=
    if_neg (by omega)
  unfold grow
  simp only [hnew, hfact]
  split
  · next hc => exact .filled rfl hc.1 hc.2
  · next hc =>
      rw [if_neg (by omega)]
      exact .grown rfl (by omega)

theorem Fits.growAll_eq : growAll freeSize scheme =
    scheme.map (grow (weights scheme) (freeSize - sizes scheme)) := by
  have hle := h.sizes_le
  have hsz := sizes_nonneg h.min_nonneg
  unfold growAll
  simp only [h.factorSum_eq, h.minSize_eq hfree]
  rw [longLong_eq (by omega) (by omega), if_neg (by omega)]

end Round

section Loop

variable {freeSize : Int} {scheme : List Line} (hfree : 100 * freeSize < 2 ^ 63)

include hfree

theorem Fits.round (h : Fits freeSize scheme) : Fits freeSize (growAll freeSize scheme) := by
  have hb := fun l (hl : l ∈ scheme) =>
    (h.grew hfree hl).bounds (h.share_nonneg hl) (h.max_ok l hl)
  rw [h.growAll_eq hfree]
  constructor
  case min_nonneg =>
    intro l' hl'
    obtain ⟨l, hl, rfl⟩ := List.mem_map.mp hl'
    exact (h.min_nonneg l hl).trans (hb l hl).1
  case factor_nonneg =>
    intro l' hl'
    obtain ⟨l, hl, rfl⟩ := List.mem_map.mp hl'
    rcases (hb l hl).2.2.2 with he | he
    · rw [he]
      exact h.factor_nonneg l hl
    · rw [he]
  case max_ok =>
    intro l' hl'
    obtain ⟨l, hl, rfl⟩ := List.mem_map.mp hl'
    exact (hb l hl).2.2.1
  case weights_le =>
    refine le_trans ?_ h.weights_le
    rw [weights, List.map_map]
    refine List.sum_le_sum fun l hl => ?_
    rcases (hb l hl).2.2.2 with he | he
    · exact he.le
    · exact he.le.trans (h.factor_nonneg l hl)
  case sizes_le =>
    rw [sizes, List.map_map]
    have hsum : (scheme.map (Line.min ∘ grow (weights scheme) (freeSize - sizes scheme))).sum ≤
        (scheme.map fun l => l.min + share freeSize scheme l).sum :=
      List.sum_le_sum fun l hl => (hb l hl).2.1
    rw [List.sum_map_add] at hsum
    have hshare := h.sum_share_le
    have hsizes : (scheme.map Line.min).sum = sizes scheme := rfl
    omega

theorem Fits.cost_lt (h : Fits freeSize scheme) (hne : growAll freeSize scheme ≠ scheme) :
    ((growAll freeSize scheme).map cost).sum < (scheme.map cost).sum := by
  have hcost := fun l (hl : l ∈ scheme) =>
    (h.grew hfree hl).cost_lt (h.share_nonneg hl)
      (fun h0 => by rw [share, h0, Int.mul_zero, Int.zero_ediv])
      (h.factor_nonneg l hl) (h.max_ok l hl)
  rw [h.growAll_eq hfree] at hne ⊢
  rw [List.map_map]
  refine List.sum_lt_sum _ _ (fun l hl => (hcost l hl).1) ?_
  by_contra hall
  refine hne ((List.map_congr_left fun l hl => ?_).trans (List.map_id scheme))
  by_contra hl'
  exact hall ⟨l, hl, (hcost l hl).2 hl'⟩

theorem Fits.grown {recipe : List Line} (h : Fits freeSize scheme)
    (hg : List.Forall₂ Grown recipe scheme) :
    List.Forall₂ Grown recipe (Partman.growAll freeSize scheme) := by
  rw [h.growAll_eq hfree, List.forall₂_map_right_iff]
  have hall : ∀ {ps ls : List Line}, (∀ l ∈ ls, l ∈ scheme) →
      List.Forall₂ Grown ps ls → List.Forall₂ (fun p l => Grown p
        (grow (weights scheme) (freeSize - sizes scheme) l)) ps ls := by
    intro ps ls hin hps
    induction hps with
    | nil => exact .nil
    | @cons p l ps ls hpl _ ih =>
        have hl := hin l (by simp)
        refine .cons ?_ (ih fun k hk => hin k (by simp [hk]))
        exact (h.grew hfree hl).grown_of (h.share_nonneg hl)
          (fun h0 => by rw [share, h0, Int.mul_zero, Int.zero_ediv]) hpl
  exact hall (fun _ hl => hl) hg

theorem Fits.rest (h : Fits freeSize scheme) (hst : growAll freeSize scheme = scheme)
    (hex : ∃ l ∈ scheme, 0 < l.factor) :
    freeSize - sizes scheme < (scheme.countP fun l => decide (0 < l.factor) : Nat) := by
  rw [h.growAll_eq hfree] at hst
  have hfix : ∀ l ∈ scheme, grow (weights scheme) (freeSize - sizes scheme) l = l :=
    List.map_eq_map_iff.mp (hst.trans (List.map_id scheme).symm)
  have hshare : ∀ l ∈ scheme, 0 < l.factor → (freeSize - sizes scheme) * l.factor <
      weights scheme := by
    intro l hl hpos
    have hw : 0 < weights scheme := hpos.trans_le (le_sum_map h.factor_nonneg hl)
    rcases h.grew hfree hl with ⟨he, -⟩ | ⟨he, -, -⟩
    · have hzero : share freeSize scheme l = 0 := by
        have := congrArg Line.min ((hfix l hl).symm.trans he)
        simp only at this
        omega
      have := Int.lt_ediv_add_one_mul_self ((freeSize - sizes scheme) * l.factor) hw
      rw [show (freeSize - sizes scheme) * l.factor / weights scheme = 0 from hzero] at this
      simpa using this
    · have := congrArg Line.factor ((hfix l hl).symm.trans he)
      simp only at this
      omega
  have hcount : (scheme.countP fun l => decide (0 < l.factor)) =
      (scheme.map Line.factor).countP fun f => decide (0 < f) := by
    rw [List.countP_map]
    rfl
  rw [hcount]
  refine Shares.lt_count_of_no_share ?_ ?_ ?_
  · intro f hf
    obtain ⟨l, hl, rfl⟩ := List.mem_map.mp hf
    exact h.factor_nonneg l hl
  · intro f hf hpos
    obtain ⟨l, hl, rfl⟩ := List.mem_map.mp hf
    exact hshare l hl hpos
  · obtain ⟨l, hl, hpos⟩ := hex
    exact ⟨l.factor, List.mem_map.mpr ⟨l, hl, rfl⟩, hpos⟩

end Loop

/-! ## The recipe, made into percentages -/

theorem sum_differences (scheme : List Line) :
    (scheme.map fun l => l.factor - l.min).sum = weights scheme - sizes scheme := by
  unfold weights sizes
  induction scheme with
  | nil => rfl
  | cons l ls ih =>
      simp only [List.map_cons, List.sum_cons]
      omega

/-- A recipe whose numbers are small enough. -/
structure Modest (scheme : List Line) : Prop where
  min_nonneg : ∀ l ∈ scheme, 0 ≤ l.min
  min_le_factor : ∀ l ∈ scheme, l.min ≤ l.factor
  max_ok : ∀ l ∈ scheme, l.max = -1 ∨ l.min ≤ l.max
  bound : 100 * weights scheme < 2 ^ 63

section Scale

variable {scheme : List Line} (h : Modest scheme)

include h

theorem Modest.factor_nonneg (l : Line) (hl : l ∈ scheme) : 0 ≤ l.factor :=
  (h.min_nonneg l hl).trans (h.min_le_factor l hl)

theorem Modest.sizes_le : sizes scheme ≤ weights scheme :=
  List.sum_le_sum h.min_le_factor

/-- The divisor that `expand_scheme` uses. -/
def divisor (scheme : List Line) : Int :=
  if weights scheme - sizes scheme = 0 then 100 else weights scheme - sizes scheme

theorem Modest.divisor_pos : 0 < divisor scheme := by
  have := h.sizes_le
  unfold divisor
  split <;> omega

theorem Modest.scale_eq : scale scheme = scheme.map fun l =>
    { l with
      factor := 100 * (l.factor - l.min) / divisor scheme
      fs := if l.fs ∈ expandFilesystems then l.fs else "ext2" } := by
  have hb := h.bound
  have hle := h.sizes_le
  have hnn := sizes_nonneg h.min_nonneg
  have hfs : factorSum scheme = weights scheme := by
    rw [factorSum, foldl_wrap scheme 0 le_rfl h.factor_nonneg
      (by rw [Int.zero_add]; show weights scheme < _; omega), Int.zero_add]
    rfl
  have hms : minSize scheme = sizes scheme := by
    rw [minSize, foldl_wrap scheme 0 le_rfl h.min_nonneg
      (by rw [Int.zero_add]; show sizes scheme < _; omega), Int.zero_add]
    rfl
  unfold scale
  simp only [hfs, hms]
  rw [longLong_eq (by omega) (by omega)]
  refine List.map_congr_left fun l hl => ?_
  have hmin := h.min_nonneg l hl
  have hfac := h.min_le_factor l hl
  have hw : l.factor ≤ weights scheme := le_sum_map h.factor_nonneg hl
  rw [longLong_eq (x := l.factor - l.min) (by omega) (by omega),
    longLong_eq (by omega) (by omega), Int.tdiv_eq_ediv_of_nonneg (by omega),
    Int.mul_comm (l.factor - l.min)]
  rfl

theorem Modest.fits_scale (hfree : sizes scheme ≤ freeSize) : Fits freeSize (scale scheme) := by
  have hpos := h.divisor_pos
  have hdiff : ∀ l ∈ scheme, 0 ≤ l.factor - l.min :=
    fun l hl => Int.sub_nonneg.mpr (h.min_le_factor l hl)
  rw [h.scale_eq]
  constructor
  case min_nonneg =>
    intro l' hl'
    obtain ⟨l, hl, rfl⟩ := List.mem_map.mp hl'
    exact h.min_nonneg l hl
  case factor_nonneg =>
    intro l' hl'
    obtain ⟨l, hl, rfl⟩ := List.mem_map.mp hl'
    exact Int.ediv_nonneg (Int.mul_nonneg (by decide) (hdiff l hl)) hpos.le
  case max_ok =>
    intro l' hl'
    obtain ⟨l, hl, rfl⟩ := List.mem_map.mp hl'
    exact h.max_ok l hl
  case weights_le =>
    have hle : (scheme.map fun l => l.factor - l.min).sum ≤ divisor scheme := by
      rw [sum_differences]
      unfold divisor
      split <;> omega
    have := Shares.sum_shares_le (u := 100) (by decide) hpos hle
    rw [List.map_map] at this
    rw [weights, List.map_map]
    exact this
  case sizes_le =>
    rw [sizes, List.map_map]
    exact hfree

end Scale

theorem Fits.grown_self (h : Fits freeSize scheme) : List.Forall₂ Grown scheme scheme :=
  List.forall₂_same.mpr fun l hl =>
    ⟨rfl, rfl, le_rfl, fun hne => (h.max_ok l hl).resolve_left hne, .inl rfl⟩

theorem Fits.cost_nonneg (h : Fits freeSize scheme) : 0 ≤ (scheme.map cost).sum + freeSize := by
  have hsum : 0 ≤ (scheme.map fun l => cost l + l.min).sum :=
    sum_map_nonneg fun l _ => by
      unfold cost
      split <;> omega
  rw [List.sum_map_add] at hsum
  have hsizes : (scheme.map Line.min).sum ≤ freeSize := h.sizes_le
  omega

/-! ## The whole of `expand_scheme` -/

/-- What the callers of `expand_scheme` rely on. -/
structure Expanded (freeSize : Int) (scheme result : List Line) : Prop where
  /-- The same partitions in the same order, each within its bounds. -/
  lines : List.Forall₂ (fun p l => l.tail = p.tail ∧ p.min ≤ l.min ∧
    (p.max ≠ -1 → l.min ≤ p.max)) scheme result
  total : sizes result ≤ freeSize
  rest : (∃ l ∈ result, 0 < l.factor) →
    freeSize - sizes result < (result.countP fun l => decide (0 < l.factor) : Nat)
  /-- A weight is given up only at the maximum. -/
  filled : List.Forall₂ (fun p l => 0 < p.factor → l.factor = 0 → l.min = p.max)
    (scale scheme) result

theorem Expanded.of_partitions (scheme : List Partition)
    (hmin : ∀ p ∈ filterReused (scheme.map (·.toLine)), 0 ≤ p.min)
    (hfac : 100 * weights (filterReused (scheme.map (·.toLine))) < 2 ^ 63)
    (hfree : 100 * freeSize < 2 ^ 63)
    (hfit : sizes (filterReused (scheme.map (·.toLine))) ≤ freeSize) :
    (∃ fuel result, expandScheme freeSize (scheme.map (·.toLine)) fuel = some result) ∧
    ∀ fuel result, expandScheme freeSize (scheme.map (·.toLine)) fuel = some result →
      Expanded freeSize (filterReused (scheme.map (·.toLine))) result := by
  have hof : ∀ l ∈ filterReused (scheme.map (·.toLine)), ∃ p : Partition, l = p.toLine := by
    intro l hl
    obtain ⟨p, -, rfl⟩ := List.mem_map.mp (List.mem_filter.mp hl).1
    exact ⟨p, rfl⟩
  have hmod : Modest (filterReused (scheme.map (·.toLine))) := by
    refine ⟨hmin, fun l hl => ?_, fun l hl => ?_, hfac⟩
    · obtain ⟨p, rfl⟩ := hof l hl
      exact p.min_le_factor
    · obtain ⟨p, rfl⟩ := hof l hl
      exact p.max_ok
  have hstart := hmod.fits_scale hfit
  have hround : ∀ s, Fits freeSize s ∧
      List.Forall₂ Grown (scale (filterReused (scheme.map (·.toLine)))) s →
      Fits freeSize (growAll freeSize s) ∧
      List.Forall₂ Grown (scale (filterReused (scheme.map (·.toLine))))
        (growAll freeSize s) :=
    fun s hs => ⟨hs.1.round hfree, hs.1.grown hfree hs.2⟩
  unfold expandScheme
  refine ⟨?_, fun fuel result hrun => ?_⟩
  · refine ⟨_, Shares.untilStable_isSome (m := fun s => ((s.map cost).sum + freeSize).toNat)
      (fun s hs => Fits.round hfree hs) (fun s hs hne => ?_) _ _ hstart
      (Nat.lt_succ_self _)⟩
    have hlt := hs.cost_lt hfree hne
    have hnn := (hs.round hfree).cost_nonneg
    omega
  · obtain ⟨⟨hfits, hgrown⟩, hst⟩ := Shares.untilStable_spec hround hrun
      ⟨hstart, hstart.grown_self⟩
    refine ⟨?_, hfits.sizes_le, hfits.rest hfree hst, ?_⟩
    · rw [hmod.scale_eq, List.forall₂_map_left_iff] at hgrown
      exact hgrown.imp fun p l hg => ⟨hg.tail, hg.lower, hg.upper⟩
    · exact hgrown.imp fun p l hg hpos hz => by
        rcases hg.weight with hw | ⟨-, hl⟩
        · omega
        · exact hl

/-- `expand_scheme` comes to an end and deals the space out, for every scheme that
`decode_recipe` makes of a recipe. -/
theorem expandScheme_expanded (m : Machine) (unnamed : Text) (recipe : List Text) :
    ∀ d, decodeRecipe m unnamed recipe = .ok d → ∀ freeSize : Int,
    (∀ p ∈ filterReused (d.scheme.map (·.toLine)), 0 ≤ p.min) →
    100 * weights (filterReused (d.scheme.map (·.toLine))) < 2 ^ 63 →
    100 * freeSize < 2 ^ 63 →
    sizes (filterReused (d.scheme.map (·.toLine))) ≤ freeSize →
    (∃ fuel result, expandScheme freeSize (d.scheme.map (·.toLine)) fuel = some result) ∧
    ∀ fuel result, expandScheme freeSize (d.scheme.map (·.toLine)) fuel = some result →
      Expanded freeSize (filterReused (d.scheme.map (·.toLine))) result :=
  fun d _ _ => Expanded.of_partitions d.scheme

/-- Where the file system is named and nothing is reused. -/
def plainMachine : Machine where
  ram := 1024
  defaultFilesystem := "ext4"
  description _ := none
  excluded _ := false
  reuse tail := tail

/-- A root file system that may grow without bound, and a swap partition. -/
def smallRecipe : List Partition :=
  [{ min := 50, factor := 400, max := -1, fs := "ext4", tail := []
     min_le_factor := by decide, max_ok := by decide },
   { min := 100, factor := 200, max := 300, fs := "linux-swap", tail := []
     min_le_factor := by decide, max_ok := by decide }]

theorem decodeRecipe_small : decodeRecipe plainMachine []
    (words "small : 50 400 -1 ext4 . 100 200 300 linux-swap .") =
      .ok { name := "small", scheme := smallRecipe } := by
  decide +kernel

theorem smallRecipe_expanded :
    ((∃ fuel result, expandScheme 1000 (smallRecipe.map (·.toLine)) fuel = some result) ∧
    ∀ fuel result, expandScheme 1000 (smallRecipe.map (·.toLine)) fuel = some result →
      Expanded 1000 (filterReused (smallRecipe.map (·.toLine))) result) ∧
    (expandScheme 1000 (smallRecipe.map (·.toLine)) 9).map (·.map (·.min)) =
      some [711, 288] :=
  ⟨expandScheme_expanded plainMachine [] _ _ decodeRecipe_small 1000 (by decide) (by decide)
    (by decide) (by decide), by decide +kernel⟩

/-- Two partitions whose priorities overflow the percentages. -/
def hugeRecipe : List Partition :=
  [{ min := 0, factor := 10 ^ 17, max := -1, fs := "ext4", tail := []
     min_le_factor := by decide, max_ok := by decide },
   { min := 0, factor := 10 ^ 16, max := -1, fs := "ext4", tail := []
     min_le_factor := by decide, max_ok := by decide }]

/-- They get 1134 megabytes out of 1000. -/
theorem expandScheme_overspends :
    decodeRecipe plainMachine []
      (words "huge : 0 100000000000000000 -1 ext4 . 0 10000000000000000 -1 ext4 .") =
        .ok { name := "huge", scheme := hugeRecipe } ∧
    (∀ p ∈ filterReused (hugeRecipe.map (·.toLine)), 0 ≤ p.min) ∧
    sizes (filterReused (hugeRecipe.map (·.toLine))) ≤ 1000 ∧
    ∃ fuel result, expandScheme 1000 (hugeRecipe.map (·.toLine)) fuel = some result ∧
      sizes result = 1134 ∧
      ¬ Expanded 1000 (filterReused (hugeRecipe.map (·.toLine))) result := by
  have hrun : (expandScheme 1000 (hugeRecipe.map (·.toLine)) 9).map sizes = some 1134 := by
    decide +kernel
  obtain ⟨result, hrun, hsizes⟩ := Option.map_eq_some_iff.mp hrun
  refine ⟨by decide +kernel, by decide, by decide, 9, result, hrun, hsizes, fun h => ?_⟩
  have := h.total
  omega

end DebianInstaller.Partman
