import CallTrace.Text.Blank
import CallTrace.Text.Digit

/-!
# Written integers

An integer may stand between blanks, may have one sign, and is written in decimal digits of any
script. A single underscore may separate two digits. Readers refuse more digits than `digitLimit`.
-/

namespace CallTrace.Text

def digitLimit : Nat := 4300

/-- The values of a run of digits in which single underscores may stand between two digits. -/
def digits? : List Char → Option (List Nat)
  | [] => none
  | [c] => (digitValue? c).map ([·])
  | c :: '_' :: r => do
    let d ← digitValue? c
    return d :: (← digits? r)
  | c :: r => do
    let d ← digitValue? c
    return d :: (← digits? r)

def ofDigits (ds : List Nat) : Nat := ds.foldl (fun n d => 10 * n + d) 0

def natural? (s : List Char) : Option Nat := do
  let ds ← digits? s
  if ds.length ≤ digitLimit then some (ofDigits ds) else none

def integer? (s : List Char) : Option Int :=
  match trim s with
  | '-' :: r => (natural? r).map fun n => -(n : Int)
  | '+' :: r => (natural? r).map Int.ofNat
  | r => (natural? r).map Int.ofNat

theorem digits?_of_isDigit {s : List Char} (hne : s ≠ []) (hs : ∀ c ∈ s, c.isDigit = true) :
    digits? s = some (s.map fun c => c.toNat - '0'.toNat) := by
  induction s with
  | nil => exact absurd rfl hne
  | cons c r ih =>
    have hc := digitValue?_of_isDigit (hs c List.mem_cons_self)
    cases r with
    | nil => simp [digits?, hc]
    | cons d r =>
      have hr := ih (by simp) fun x hx => hs x (List.mem_cons_of_mem c hx)
      have hd : d ≠ '_' := by
        rintro rfl
        exact absurd (hs '_' (by simp)) (by decide)
      rw [digits?, hc, hr]
      · rfl
      · simp
      · intro t ht
        exact hd (List.cons.inj ht).1

theorem ofDigits_map (s : List Char) :
    ofDigits (s.map fun c => c.toNat - '0'.toNat) = Nat.ofDigitChars 10 s 0 := by
  simp [ofDigits, Nat.ofDigitChars, List.foldl_map]

theorem natural?_toDigits (n : Nat) :
    natural? (Nat.toDigits 10 n) =
      if (Nat.toDigits 10 n).length ≤ digitLimit then some n else none := by
  have hd : ∀ c ∈ Nat.toDigits 10 n, c.isDigit = true := fun c hc =>
    Nat.isDigit_of_mem_toDigits (by omega) (by omega) hc
  have hne : Nat.toDigits 10 n ≠ [] := List.ne_nil_of_length_pos Nat.length_toDigits_pos
  rw [natural?, digits?_of_isDigit hne hd]
  simp only [Option.bind_eq_bind, Option.bind_some, List.length_map, ofDigits_map]
  rw [Nat.ofDigitChars_toDigits (by omega) (by omega)]

theorem ne_underscore_of_digitValue? {c : Char} {d : Nat} (h : digitValue? c = some d) :
    c ≠ '_' := by
  rintro rfl
  cases digitValue?_underscore.symm.trans h

/-- The values are those of the characters, but for the underscores. -/
theorem map_digitValue?_filter {s : List Char} {ds : List Nat} (h : digits? s = some ds) :
    (s.filter (· ≠ '_')).map digitValue? = ds.map some := by
  fun_induction digits? s generalizing ds with
  | case1 => cases h
  | case2 c =>
    obtain ⟨d, hd, rfl⟩ := Option.map_eq_some_iff.mp h
    simp [ne_underscore_of_digitValue? hd, hd]
  | case3 c r ih =>
    simp only [Option.bind_eq_bind, Option.bind_eq_some_iff] at h
    obtain ⟨d, hd, es, hes, heq⟩ := h
    obtain rfl := Option.some.inj heq
    simpa [ne_underscore_of_digitValue? hd, hd] using ih hes
  | case4 c r _ _ ih =>
    simp only [Option.bind_eq_bind, Option.bind_eq_some_iff] at h
    obtain ⟨d, hd, es, hes, heq⟩ := h
    obtain rfl := Option.some.inj heq
    simpa [ne_underscore_of_digitValue? hd, hd] using ih hes

theorem lt_ten_of_mem_digits? {s : List Char} {ds : List Nat} (h : digits? s = some ds) {d : Nat}
    (hd : d ∈ ds) : d < 10 := by
  have hmem : some d ∈ ds.map some := List.mem_map_of_mem hd
  rw [← map_digitValue?_filter h] at hmem
  obtain ⟨c, -, hc⟩ := List.mem_map.mp hmem
  exact digitValue?_lt_ten hc

theorem mem_of_digits? {s : List Char} {ds : List Nat} (h : digits? s = some ds) {c : Char}
    (hc : c ∈ s) : c = '_' ∨ (digitValue? c).isSome := by
  by_cases hline : c = '_'
  · exact .inl hline
  · have hmem : digitValue? c ∈ (s.filter (· ≠ '_')).map digitValue? :=
      List.mem_map_of_mem (List.mem_filter.mpr ⟨hc, decide_eq_true hline⟩)
    rw [map_digitValue?_filter h] at hmem
    obtain ⟨d, -, hd⟩ := List.mem_map.mp hmem
    exact .inr (by simp [← hd])

/-- Leading zeros aside, as many digits are written as were read. -/
theorem length_toDigits_ofDigits_le {ds : List Nat} {k : Nat} (hk : 0 < k)
    (hdigits : ∀ d ∈ ds, d < 10) (hlength : ds.length ≤ k) :
    (Nat.toDigits 10 (ofDigits ds)).length ≤ k := by
  have fold (es : List Nat) (hes : ∀ d ∈ es, d < 10) (n : Nat) :
      es.foldl (fun n d => 10 * n + d) n < (n + 1) * 10 ^ es.length := by
    induction es generalizing n with
    | nil => simp
    | cons e es ih =>
      obtain ⟨he, hes⟩ := List.forall_mem_cons.mp hes
      calc es.foldl (fun n d => 10 * n + d) (10 * n + e)
          < (10 * n + e + 1) * 10 ^ es.length := ih hes _
        _ ≤ (10 * (n + 1)) * 10 ^ es.length := Nat.mul_le_mul_right _ (by omega)
        _ = (n + 1) * 10 ^ (es.length + 1) := by rw [Nat.pow_succ]; ac_rfl
  have hlt : ofDigits ds < 10 ^ ds.length := by simpa [ofDigits] using fold ds hdigits 0
  apply (Nat.length_toDigits_le_iff (by omega) hk).mpr
  exact Nat.lt_of_lt_of_le hlt (Nat.pow_le_pow_right (by omega) hlength)

theorem natural?_eq_some_iff {s : List Char} {n : Nat} :
    natural? s = some n ↔ ∃ ds, digits? s = some ds ∧ ds.length ≤ digitLimit ∧ ofDigits ds = n := by
  simp [natural?, Option.bind_eq_some_iff]

theorem length_toDigits_of_natural? {s : List Char} {n : Nat} (h : natural? s = some n) :
    (Nat.toDigits 10 n).length ≤ digitLimit := by
  obtain ⟨ds, hds, hlength, rfl⟩ := natural?_eq_some_iff.mp h
  have hpos : 0 < digitLimit := by decide
  exact length_toDigits_ofDigits_le hpos (fun _ => lt_ten_of_mem_digits? hds) hlength

/-- Readers take the number: it does not have too many digits. -/
def Readable (n : Int) : Prop := (Nat.toDigits 10 n.natAbs).length ≤ digitLimit

instance (n : Int) : Decidable (Readable n) := inferInstanceAs (Decidable (_ ≤ _))

/-- A one and that many zeros are too many digits. -/
theorem not_readable_of_le {k : Nat} (h : digitLimit ≤ k) :
    ¬ Readable (ofDigits (1 :: List.replicate k 0)) := by
  have hpow (k : Nat) : ofDigits (1 :: List.replicate k 0) = 10 ^ k := by
    induction k with
    | zero => rfl
    | succ k ih =>
      have hlast : ofDigits (1 :: List.replicate (k + 1) 0) =
          10 * ofDigits (1 :: List.replicate k 0) := by
        simp [ofDigits, List.replicate_succ', List.foldl_append]
      rw [hlast, ih, Nat.pow_succ, Nat.mul_comm]
  have hpos : 0 < digitLimit := by decide
  intro hread
  have hlt := (Nat.length_toDigits_le_iff (by omega) hpos).mp hread
  rw [Int.natAbs_natCast, hpow] at hlt
  exact Nat.not_lt.mpr (Nat.pow_le_pow_right (by omega) h) hlt

theorem toList_toString_nonneg (n : Nat) : (toString (n : Int)).toList = Nat.toDigits 10 n :=
  Nat.toList_repr

theorem toList_toString_negSucc (n : Nat) :
    (toString (Int.negSucc n)).toList = '-' :: Nat.toDigits 10 (n + 1) := by
  have happend : toString (Int.negSucc n) = "-" ++ (n + 1).repr := rfl
  rw [happend, String.toList_append, Nat.toList_repr]
  rfl

/-- A number is written in digits, with a sign before them at most. -/
theorem mem_toString {n : Int} {c : Char} (hc : c ∈ (toString n).toList) :
    c = '-' ∨ c.isDigit = true := by
  cases n with
  | ofNat n =>
    rw [Int.ofNat_eq_natCast, toList_toString_nonneg] at hc
    exact .inr (Nat.isDigit_of_mem_toDigits (by omega) (by omega) hc)
  | negSucc n =>
    rw [toList_toString_negSucc] at hc
    rcases List.mem_cons.mp hc with rfl | hc
    · exact .inl rfl
    · exact .inr (Nat.isDigit_of_mem_toDigits (by omega) (by omega) hc)

/-- Digits lie outside every class whose ranges leave them out. -/
theorem not_within_of_isDigit {rs : List CodeRange} {c : Char} (h : c.isDigit = true)
    (hrs : ∀ r ∈ rs, r.2 < 48 ∨ 57 < r.1) : within rs c = false := by
  have hc := toNat_of_isDigit h
  apply eq_false_of_ne_true
  intro hin
  obtain ⟨r, hr, hlow, hhigh⟩ := within_iff.mp hin
  rcases hrs r hr with hlt | hlt <;> omega

theorem trim_toString (n : Int) : trim (toString n).toList = (toString n).toList := by
  apply trim_eq_self
  intro c hc
  rcases mem_toString hc with rfl | hdigit
  · decide
  · exact not_within_of_isDigit hdigit (by decide)

theorem integer?_of_isDigit {s : List Char} {d : Char} (hd : d.isDigit = true)
    (htrim : trim (d :: s) = d :: s) :
    integer? (d :: s) = (natural? (d :: s)).map Int.ofNat := by
  have hminus : d ≠ '-' := by
    rintro rfl
    exact absurd hd (by decide)
  have hplus : d ≠ '+' := by
    rintro rfl
    exact absurd hd (by decide)
  rw [integer?, htrim]
  split
  · next heq => exact absurd (List.cons.inj heq).1 hminus
  · next heq => exact absurd (List.cons.inj heq).1 hplus
  · rfl

/-- A number is read as it is written unless it has too many digits. -/
theorem integer?_toString (n : Int) :
    integer? (toString n).toList = if Readable n then some n else none := by
  have htrim := trim_toString n
  cases n with
  | ofNat n =>
    have hread := natural?_toDigits n
    rw [Int.ofNat_eq_natCast, toList_toString_nonneg] at htrim ⊢
    obtain ⟨d, s, hds⟩ := List.exists_cons_of_ne_nil (Nat.toDigits_ne_nil (b := 10) (n := n))
    have hd : d.isDigit = true := by
      apply Nat.isDigit_of_mem_toDigits (b := 10) (n := n) (by omega) (by omega)
      rw [hds]
      exact List.mem_cons_self
    rw [hds] at htrim
    rw [hds, integer?_of_isDigit hd htrim, ← hds, hread, apply_ite (Option.map Int.ofNat)]
    rfl
  | negSucc n =>
    have hread := natural?_toDigits (n + 1)
    rw [toList_toString_negSucc] at htrim ⊢
    rw [integer?, htrim]
    by_cases hreadable : Readable (Int.negSucc n)
    · have hsome : natural? (Nat.toDigits 10 (n + 1)) = some (n + 1) := hread.trans (if_pos hreadable)
      rw [if_pos hreadable]
      simp [hsome, Int.negSucc_eq]
    · have hnone : natural? (Nat.toDigits 10 (n + 1)) = none := hread.trans (if_neg hreadable)
      rw [if_neg hreadable]
      simp [hnone]

/-- An integer is a natural number after a sign, if there is one. -/
theorem exists_natural_of_integer? {s : List Char} {n : Int} (h : integer? s = some n) :
    ∃ r, natural? r = some n.natAbs ∧ ∀ c ∈ trim s, c = '+' ∨ c = '-' ∨ c ∈ r := by
  rw [integer?] at h
  split at h
  · next r hr =>
    obtain ⟨_, hread, rfl⟩ := Option.map_eq_some_iff.mp h
    obtain ⟨k, hk, hcast⟩ := Option.bind_eq_some_iff.mp hread
    obtain rfl := Option.some.inj hcast
    refine ⟨r, by simpa using hk, ?_⟩
    simp +contextual [hr]
  · next r hr =>
    obtain ⟨k, hk, rfl⟩ := Option.map_eq_some_iff.mp h
    refine ⟨r, by simpa using hk, ?_⟩
    simp +contextual [hr]
  · next hminus hplus =>
    obtain ⟨k, hk, rfl⟩ := Option.map_eq_some_iff.mp h
    refine ⟨trim s, by simpa using hk, ?_⟩
    simp +contextual

/-- What is read as an integer is one that readers take as it is written. -/
theorem readable_of_integer? {s : List Char} {n : Int} (h : integer? s = some n) : Readable n := by
  obtain ⟨r, hr, -⟩ := exists_natural_of_integer? h
  exact length_toDigits_of_natural? hr

theorem mem_of_integer? {s : List Char} {n : Int} {c : Char} (h : integer? s = some n)
    (hc : c ∈ s) :
    isBlank c = true ∨ c = '+' ∨ c = '-' ∨ c = '_' ∨ (digitValue? c).isSome := by
  obtain ⟨r, hr, htrim⟩ := exists_natural_of_integer? h
  obtain ⟨ds, hds, -⟩ := natural?_eq_some_iff.mp hr
  cases hb : isBlank c with
  | true => exact .inl rfl
  | false =>
    right
    rcases htrim c (mem_trim hc hb) with hplus | hminus | hdigits
    · exact .inl hplus
    · exact .inr (.inl hminus)
    · exact .inr (.inr (mem_of_digits? hds hdigits))

end CallTrace.Text
