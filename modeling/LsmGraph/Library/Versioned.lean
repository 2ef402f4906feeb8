import Mathlib.Data.Set.Lattice
import Mathlib.Order.Basic

/-! # Versioned records

A record carries a key and a timestamp, and of the records of one key only the newest counts. The
module studies sets of such records under the two operations a multi-version store performs on
them: forgetting records that a newer one of the same key supersedes (`Covers`), and reading as of
a timestamp (`asOf`). What a reader sees is `Newest`, and `newest_iff_of_covers` is the law every
merge rests on: a subset that still covers the whole has the same newest records. -/

namespace Versioned

variable {ρ κ τ : Type*} [LinearOrder τ] (key : ρ → κ) (ts : ρ → τ)

/-! ## Newest records -/

/-- `r` is in `R` and no record of its key in `R` is newer. -/
def Newest (R : Set ρ) (r : ρ) : Prop :=
  r ∈ R ∧ ∀ r' ∈ R, key r' = key r → ts r' ≤ ts r

/-- The records of `R` with a timestamp of at most `s`. -/
def asOf (R : Set ρ) (s : τ) : Set ρ := {r | r ∈ R ∧ ts r ≤ s}

/-- In `R`, key and timestamp identify the record. -/
def Coherent (R : Set ρ) : Prop :=
  ∀ r ∈ R, ∀ r' ∈ R, key r = key r' → ts r = ts r' → r = r'

variable {key ts}

@[simp] theorem mem_asOf {R : Set ρ} {s : τ} {r : ρ} : r ∈ asOf ts R s ↔ r ∈ R ∧ ts r ≤ s := Iff.rfl

omit [LinearOrder τ] in
/-- A part of a coherent set is coherent. -/
theorem Coherent.mono {R S : Set ρ} (h : Coherent key ts S) (hRS : R ⊆ S) : Coherent key ts R :=
  fun r hr r' hr' => h r (hRS hr) r' (hRS hr')

/-- A key has at most one newest record in a coherent set. -/
theorem Newest.unique {R : Set ρ} (h : Coherent key ts R) {r r' : ρ} (hr : Newest key ts R r)
    (hr' : Newest key ts R r') (hkey : key r = key r') : r = r' :=
  h r hr.1 r' hr'.1 hkey (le_antisymm (hr'.2 r hr.1 hkey) (hr.2 r' hr'.1 hkey.symm))

/-! ## Coverage -/

variable (key ts) in
/-- Every record of `R` has a record of the same key in `C` that is at least as new. -/
def Covers (C R : Set ρ) : Prop :=
  ∀ r ∈ R, ∃ r' ∈ C, key r' = key r ∧ ts r ≤ ts r'

/-- A superset covers. -/
theorem Covers.of_subset {C R : Set ρ} (h : R ⊆ C) : Covers key ts C R :=
  fun r hr => ⟨r, h hr, rfl, le_rfl⟩

theorem Covers.refl (R : Set ρ) : Covers key ts R R := Covers.of_subset subset_rfl

theorem Covers.trans {A B C : Set ρ} (hAB : Covers key ts A B) (hBC : Covers key ts B C) :
    Covers key ts A C := by
  intro r hr
  obtain ⟨r', hr', hkey', hts'⟩ := hBC r hr
  obtain ⟨r'', hr'', hkey'', hts''⟩ := hAB r' hr'
  exact ⟨r'', hr'', hkey''.trans hkey', hts'.trans hts''⟩

/-- Enlarging the covering set or shrinking the covered one keeps coverage. -/
theorem Covers.mono {C C' R R' : Set ρ} (h : Covers key ts C R) (hC : C ⊆ C') (hR : R' ⊆ R) :
    Covers key ts C' R' := by
  intro r hr
  obtain ⟨r', hr', hrel⟩ := h r (hR hr)
  exact ⟨r', hC hr', hrel⟩

/-- Parts covered separately are covered together. -/
theorem Covers.union {C R S : Set ρ} (hR : Covers key ts C R) (hS : Covers key ts C S) :
    Covers key ts C (R ∪ S) := by
  rintro r (hr | hr)
  · exact hR r hr
  · exact hS r hr

/-- Coverage of a bounded set is coverage by bounded records, when every record of the keys in
question is bounded. -/
theorem Covers.asOf {C R H : Set ρ} {s : τ} (h : Covers key ts C R) (hC : C ⊆ H)
    (hbound : ∀ r ∈ R, ts r ≤ s → ∀ r' ∈ H, key r' = key r → ts r' ≤ s) :
    Covers key ts (asOf ts C s) (asOf ts R s) := by
  rintro r ⟨hr, hrs⟩
  obtain ⟨r', hr', hkey, hts⟩ := h r hr
  exact ⟨r', ⟨hr', hbound r hr hrs r' (hC hr') hkey⟩, hkey, hts⟩

/-- **Forgetting superseded records does not change what is newest.** A subset that covers a
coherent set has the same newest records. -/
theorem newest_iff_of_covers {C R : Set ρ} (hcoh : Coherent key ts R) (hsub : C ⊆ R)
    (hcov : Covers key ts C R) (r : ρ) : Newest key ts C r ↔ Newest key ts R r := by
  constructor
  · rintro ⟨hr, hmax⟩
    refine ⟨hsub hr, fun r' hr' hkey => ?_⟩
    obtain ⟨r'', hr'', hkey', hts⟩ := hcov r' hr'
    exact hts.trans (hmax r'' hr'' (hkey'.trans hkey))
  · rintro ⟨hr, hmax⟩
    obtain ⟨r', hr', hkey, hts⟩ := hcov r hr
    have heq : r' = r :=
      hcoh r' (hsub hr') r hr hkey (le_antisymm (hmax r' (hsub hr') hkey) hts)
    exact ⟨heq ▸ hr', fun r'' hr'' hk => hmax r'' (hsub hr'') hk⟩

/-- Where timestamps cannot grow for ever, a newest record of a key stands above each of its
records. -/
theorem exists_newest [WellFoundedGT τ] {R : Set ρ} {r : ρ} (hr : r ∈ R) :
    ∃ r', Newest key ts R r' ∧ key r' = key r := by
  obtain ⟨t, ⟨r', ⟨hr', hkey⟩, rfl⟩, hmax⟩ := wellFounded_gt.has_min
    {t | ∃ r', (r' ∈ R ∧ key r' = key r) ∧ ts r' = t} ⟨ts r, r, ⟨hr, rfl⟩, rfl⟩
  refine ⟨r', ⟨hr', fun r'' hr'' hkey'' => ?_⟩, hkey⟩
  exact not_lt.mp (hmax (ts r'') ⟨r'', ⟨hr'', hkey''.trans hkey⟩, rfl⟩)

/-- **A part that keeps the newest records has the same newest records**, key by key. -/
theorem newest_iff_of_newest_mem [WellFoundedGT τ] {C R : Set ρ} {K : κ → Prop} (hsub : C ⊆ R)
    (hkept : ∀ r, Newest key ts R r → K (key r) → r ∈ C) {r : ρ} (hK : K (key r)) :
    Newest key ts C r ↔ Newest key ts R r := by
  constructor
  · rintro ⟨hr, hmax⟩
    obtain ⟨r', hr', hkey⟩ : ∃ r', Newest key ts R r' ∧ key r' = key r := exists_newest (hsub hr)
    have hle := hmax r' (hkept r' hr' (hkey ▸ hK)) hkey
    exact ⟨hsub hr, fun r'' hr'' hkey'' => (hr'.2 r'' hr'' (hkey''.trans hkey.symm)).trans hle⟩
  · exact fun hr => ⟨hkept r hr hK, fun r' hr' hkey => hr.2 r' (hsub hr') hkey⟩

/-- Newest records of a part closed under keys are the newest records of the whole in the part. -/
theorem newest_sep_iff {R : Set ρ} {K : κ → Prop} {r : ρ} :
    Newest key ts {x | x ∈ R ∧ K (key x)} r ↔ Newest key ts R r ∧ K (key r) := by
  constructor
  · rintro ⟨⟨hr, hK⟩, hmax⟩
    exact ⟨⟨hr, fun r' hr' hkey => hmax r' ⟨hr', hkey ▸ hK⟩ hkey⟩, hK⟩
  · rintro ⟨⟨hr, hmax⟩, hK⟩
    exact ⟨⟨hr, hK⟩, fun r' hr' hkey => hmax r' hr'.1 hkey⟩

end Versioned
