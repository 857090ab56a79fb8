import ModuleGraph.Export.Document
import ModuleGraph.Proofs.JsonText
import Mathlib.Algebra.Group.Nat.Defs
import Mathlib.Data.List.TakeWhile

namespace ModuleGraph

namespace Json

theorem isDigits_toDigits (n : Nat) : IsDigits (Nat.toDigits 10 n) :=
  ⟨Nat.toDigits_ne_nil, fun _ hc => Nat.isDigit_of_mem_toDigits (by decide) (by decide) hc⟩

theorem toDigits_head_ne_zero {n : Nat} (h : 0 < n) : (Nat.toDigits 10 n).head? ≠ some '0' := by
  induction n using Nat.strongRecOn with
  | ind n ih =>
    rw [Nat.toDigits_eq_if (by decide)]
    split
    next hlt => simpa using by omega
    next hge =>
      have hhead := ih (n / 10) (by omega) (by omega)
      obtain ⟨d, ds, heq⟩ := List.exists_cons_of_ne_nil (Nat.toDigits_ne_nil (b := 10) (n := n / 10))
      rw [heq] at hhead ⊢
      exact hhead

theorem isDigits_append_zeros {ds : List Char} (h : IsDigits ds) (n : Nat) :
    IsDigits (ds ++ List.replicate n '0') := by
  refine ⟨by simp [h.1], fun c hc => ?_⟩
  rcases List.mem_append.mp hc with hc | hc
  · exact h.2 c hc
  · rw [List.eq_of_mem_replicate hc]
    rfl

theorem isNumeral_toDigits (n : Nat) : IsNumeral [] (Nat.toDigits 10 n) [] [] where
  signForm := .inl rfl
  wholeForm := isDigits_toDigits n
  wholeStart := by
    rcases Nat.eq_zero_or_pos n with rfl | h
    · exact .inl rfl
    · exact .inr (toDigits_head_ne_zero h)
  fractionForm := .inl rfl
  exponentForm := .inl rfl

end Json

open Json

namespace DecimalLayout

theorem isNumeral_mantissa {ds exponent : List Char} (h : IsDigits ds)
    (he : exponent = [] ∨ ∃ e s es, exponent = e :: s ++ es ∧ (e = 'e' ∨ e = 'E') ∧
      (s = [] ∨ s = ['+'] ∨ s = ['-']) ∧ IsDigits es) :
    ∃ whole fraction, mantissa ds = whole ++ fraction ∧ IsNumeral [] whole fraction exponent := by
  obtain ⟨d, ds, rfl⟩ := List.exists_cons_of_ne_nil h.1
  have hd : IsDigits [d] := ⟨by simp, fun c hc => h.2 c (by simp_all)⟩
  have hstart : [d] = ['0'] ∨ [d].head? ≠ some '0' := by
    by_cases hz : d = '0' <;> simp [hz]
  cases ds with
  | nil => exact ⟨[d], [], rfl, .inl rfl, hd, hstart, .inl rfl, he⟩
  | cons d' ds =>
    have hrest : IsDigits (d' :: ds) := ⟨by simp, fun c hc => h.2 c (List.mem_cons_of_mem _ hc)⟩
    exact ⟨[d], '.' :: d' :: ds, rfl, .inl rfl, hd, hstart, .inr ⟨_, rfl, hrest⟩, he⟩

theorem exponentText_form (e : Int) :
    ∃ mark s ds, 'e' :: exponentText e = mark :: s ++ ds ∧ (mark = 'e' ∨ mark = 'E') ∧
      (s = [] ∨ s = ['+'] ∨ s = ['-']) ∧ IsDigits ds := by
  refine ⟨'e', [if e < 0 then '-' else '+'], Nat.toDigits 10 e.natAbs, rfl, .inl rfl, ?_, isDigits_toDigits _⟩
  by_cases h : e < 0 <;> simp [h]

/-- A decimal is written as a number, unless its digits are zero and stand before the point with zeros after
them. -/
theorem write_isNumeral (layout : DecimalLayout) {d : Decimal} (h : d.digits = 0 → d.exponent ≤ 0) :
    ∃ whole fraction exponent, layout.write d = whole ++ fraction ++ exponent ∧
      IsNumeral [] whole fraction exponent := by
  have hds := isDigits_toDigits d.digits
  simp only [write]
  generalize hpoint : ((Nat.toDigits 10 d.digits).length : Int) + d.exponent = point
  split
  next =>
    split
    next hle =>
      have hzero : IsDigits ['0'] := ⟨by simp, by simp⟩
      have hfraction : IsDigits (List.replicate (-point).toNat '0' ++ Nat.toDigits 10 d.digits) := by
        refine ⟨by simp [hds.1], fun c hc => ?_⟩
        rcases List.mem_append.mp hc with hc | hc
        · rw [List.eq_of_mem_replicate hc]
          rfl
        · exact hds.2 c hc
      exact ⟨['0'], '.' :: (List.replicate (-point).toNat '0' ++ Nat.toDigits 10 d.digits), [], by simp,
        .inl rfl, hzero, .inl rfl, .inr ⟨_, rfl, hfraction⟩, .inl rfl⟩
    next hpos =>
      split
      next hlen =>
        refine ⟨_, ['.', '0'], [], (List.append_nil _).symm, .inl rfl, isDigits_append_zeros hds _, ?_,
          .inr ⟨['0'], rfl, by simp [IsDigits]⟩, .inl rfl⟩
        rcases Nat.eq_zero_or_pos d.digits with hz | hz
        · left
          have hdigits : Nat.toDigits 10 d.digits = ['0'] := by rw [hz]; rfl
          have hone : point.toNat = 1 := by
            have := h hz
            rw [hdigits] at hpoint
            simp only [List.length_singleton] at hpoint
            omega
          simp [hdigits, hone]
        · right
          have hhead := toDigits_head_ne_zero hz
          obtain ⟨c, cs, heq⟩ := List.exists_cons_of_ne_nil hds.1
          rw [heq] at hhead ⊢
          exact hhead
      next hlen =>
        have hlt : point.toNat < (Nat.toDigits 10 d.digits).length := by omega
        have htake : IsDigits ((Nat.toDigits 10 d.digits).take point.toNat) :=
          ⟨by simp [hds.1]; omega, fun c hc => hds.2 c (List.mem_of_mem_take hc)⟩
        have hdrop : IsDigits ((Nat.toDigits 10 d.digits).drop point.toNat) :=
          ⟨by simp; omega, fun c hc => hds.2 c (List.mem_of_mem_drop hc)⟩
        have hdigits : 0 < d.digits := by
          rcases Nat.eq_zero_or_pos d.digits with hz | hz
          · rw [hz, Nat.toDigits_zero, List.length_singleton] at hlt
            omega
          · exact hz
        refine ⟨_, '.' :: (Nat.toDigits 10 d.digits).drop point.toNat, [], (List.append_nil _).symm, .inl rfl,
          htake, .inr ?_, .inr ⟨_, rfl, hdrop⟩, .inl rfl⟩
        rw [List.head?_take]
        split
        next => simp
        next => exact toDigits_head_ne_zero hdigits
  next =>
    obtain ⟨whole, fraction, heq, hnum⟩ := isNumeral_mantissa hds (.inr (exponentText_form (point - 1)))
    exact ⟨whole, fraction, _, by rw [heq], hnum⟩

end DecimalLayout

namespace Decimal

namespace Rounding

variable {r : Rounding}

theorem quarterScale_pos (r : Rounding) (e : Int) : 0 < r.quarterScale e :=
  Nat.mul_pos (Nat.pow_pos (by decide)) (Nat.pow_pos (by decide))

theorem contains_zero (h : 0 < r.significand) (e : Int) : r.contains e 0 = false := by
  have hlow : 0 < r.low := by
    unfold low
    split <;> omega
  have hprod : 0 < r.low * r.quarterScale e := Nat.mul_pos hlow (r.quarterScale_pos e)
  unfold contains
  by_cases heven : r.significand % 2 = 0
  · simp only [heven, if_true, Nat.zero_mul, decide_eq_false (Nat.not_le_of_gt hprod), Bool.false_and]
  · simp [heven]

theorem contains_of_onGrid? {e : Int} {c : Nat} (hc : r.onGrid? e = some c) : r.contains e c = true := by
  simp only [onGrid?] at hc
  split at hc <;> grind

theorem onGrid?_pos (h : 0 < r.significand) {e : Int} {c : Nat} (hc : r.onGrid? e = some c) : 0 < c := by
  rcases Nat.eq_zero_or_pos c with rfl | hpos
  · exact absurd (contains_of_onGrid? hc) (by simp [contains_zero h])
  · exact hpos

theorem floorOn_natCast (r : Rounding) (k : Nat) : r.floorOn k = r.floorOn 0 / 10 ^ k := by
  simp only [floorOn, quarterScale, stepScale]
  simp [Nat.div_div_eq_div_mul]

theorem floorOn_point_pos (h : 17 < r.pointPosition) : 0 < r.floorOn (r.pointPosition - 17) := by
  unfold pointPosition at h ⊢
  by_cases hwhole : r.floorOn 0 = 0
  · simp only [hwhole, if_true] at h
    omega
  · simp only [hwhole, if_false] at h ⊢
    generalize hlen : (Nat.toDigits 10 (r.floorOn 0)).length = len at h
    have hsize : ¬ r.floorOn 0 < 10 ^ (len - 1) := by
      rw [← Nat.length_toDigits_le_iff (by decide) (by omega), hlen]
      omega
    have hcast : (len : Int) - 17 = ((len - 17 : Nat) : Int) := by omega
    rw [hcast, floorOn_natCast]
    have hpow : 10 ^ (len - 17) ≤ 10 ^ (len - 1) := Nat.pow_le_pow_right (by decide) (by omega)
    exact Nat.div_pos (by omega) (Nat.pow_pos (by decide))

end Rounding

theorem stripZeros_pos {fuel : Nat} {d : Decimal} (h : 0 < d.digits) : 0 < (stripZeros fuel d).digits := by
  induction fuel generalizing d with
  | zero => exact h
  | succ fuel ih =>
    unfold stripZeros
    split
    next hz => exact ih (by dsimp only; omega)
    next => exact h

theorem shortest_digits {significand : Nat} (h : 0 < significand) (exponent : Int)
    (hz : (shortest significand exponent).digits = 0) : (shortest significand exponent).exponent ≤ 0 := by
  simp only [shortest] at hz ⊢
  split at hz
  next d hd =>
    obtain ⟨n, -, hn⟩ := List.exists_of_findSome?_eq_some hd
    obtain ⟨c, hc, rfl⟩ := Option.map_eq_some_iff.mp hn
    have hpos : 0 < c := Rounding.onGrid?_pos h hc
    exact absurd hz (Nat.ne_of_gt (stripZeros_pos hpos))
  next =>
    by_contra hexp
    dsimp only at hz hexp
    have hpos := Rounding.floorOn_point_pos (r := ⟨significand, exponent⟩) (by omega)
    omega

end Decimal

theorem Double.significand_pos {bits significand : Nat} {exponent : Int}
    (h : (Double.ofBits bits).magnitude = .finite significand exponent) : 0 < significand := by
  simp only [Double.ofBits] at h
  split at h
  next => split at h <;> cases h
  next =>
    split at h
    next =>
      split at h
      next => cases h
      next hz =>
        cases h
        omega
    next =>
      cases h
      exact Nat.add_pos_left (Nat.pow_pos (by decide)) _

theorem Double.biased_ne_of_isFinite {x : Float} (h : x.isFinite = true) :
    x.toBits.toNat / Nat.pow 2 Double.fractionBits % Nat.pow 2 11 ≠ 2047 := by
  intro hb
  have hbits : x.toModel.toBits.toNat / 4503599627370496 % 2048 = 2047 := hb
  have hexp : @Float.Model.UnpackedFloat.unpackExponent .binary64 x.toModel.toBits.toBitVec = -1#11 := by
    apply BitVec.eq_of_toNat_eq
    simpa [Float.Model.UnpackedFloat.unpackExponent, Nat.shiftRight_eq_div_pow] using hbits
  have hunpack : x.toModel.unpack = if _ then .infinity _ else .notANumber := if_pos hexp
  change x.toModel.unpack.isFinite = true at h
  rw [hunpack] at h
  split at h <;> cases h

namespace DecimalLayout

theorem writeFloat?_isNumeral {layout : DecimalLayout} {x : Float} {spelling : List Char}
    (h : layout.writeFloat? x = some spelling) :
    ∃ sign whole fraction exponent, spelling = sign ++ whole ++ fraction ++ exponent ∧
      IsNumeral sign whole fraction exponent := by
  have hsign : (if (Double.ofFloat x).negative then ['-'] else []) = [] ∨
      (if (Double.ofFloat x).negative then ['-'] else []) = ['-'] := by
    split <;> simp
  simp only [writeFloat?] at h
  split at h
  next =>
    refine ⟨_, ['0'], ['.', '0'], [], ?_, hsign, by simp [IsDigits], .inl rfl,
      .inr ⟨['0'], rfl, by simp [IsDigits]⟩, .inl rfl⟩
    simpa using (Option.some.inj h).symm
  next significand exponent hm =>
    obtain ⟨whole, fraction, power, heq, hnum⟩ := layout.write_isNumeral
      (Decimal.shortest_digits (Double.significand_pos hm) exponent)
    refine ⟨_, whole, fraction, power, ?_, hsign, hnum.wholeForm, hnum.wholeStart, hnum.fractionForm,
      hnum.exponentForm⟩
    rw [← Option.some.inj h, heq]
    simp
  all_goals cases h

theorem writeFloat?_of_isFinite (layout : DecimalLayout) {x : Float} (h : x.isFinite = true) :
    ∃ spelling, layout.writeFloat? x = some spelling := by
  have hbiased := Double.biased_ne_of_isFinite h
  have hmagnitude : (Double.ofFloat x).magnitude = .zero ∨
      ∃ s e, (Double.ofFloat x).magnitude = .finite s e := by
    simp only [Double.ofFloat, Double.ofBits, hbiased, if_false]
    split
    next => split <;> simp
    next => simp
  rcases hmagnitude with hm | ⟨s, e, hm⟩ <;> simp [writeFloat?, hm]

end DecimalLayout

namespace Json

theorem wellSpelled_ofNat (n : Nat) : WellSpelled (.ofNat n) := by
  have hnum := WellSpelled.number (isNumeral_toDigits n)
  simpa [ofNat] using hnum

theorem wellSpelled_ofFloat (x : Float) : WellSpelled (.ofFloat x) := by
  unfold ofFloat
  split
  next spelling h =>
    obtain ⟨sign, whole, fraction, exponent, rfl, hnum⟩ := DecimalLayout.writeFloat?_isNumeral h
    exact .number hnum
  next => exact .null

theorem count?_ofNat {n : Nat} (h : n < 2 ^ 64) : (Json.ofNat n).count? = some n := by
  have hds := isDigits_toDigits n
  have hvalue : Decimal.ofDigits (Nat.toDigits 10 n) = n := Nat.ofDigitChars_toDigits (by decide) (by decide)
  have hsign : ((Nat.toDigits 10 n).head? == some '-') = false := by
    obtain ⟨d, ds, heq⟩ := List.exists_cons_of_ne_nil hds.1
    have hd : d ≠ '-' := by
      rintro rfl
      exact absurd (hds.2 '-' (by simp [heq])) (by decide)
    simp [heq, hd]
  have htake : (Nat.toDigits 10 n).takeWhile Char.isDigit = Nat.toDigits 10 n := List.takeWhile_eq_self_iff.mpr hds.2
  have hdrop : (Nat.toDigits 10 n).dropWhile Char.isDigit = [] := List.dropWhile_eq_nil_iff.mpr hds.2
  simpa [Json.ofNat, count?, Numeral.ofSpelling, hsign, htake, hdrop, Numeral.toCount?, Numeral.isWhole, hvalue] using h

/-- A double that is finite and whose decimal leads back to it. -/
def Readable (x : Float) : Prop :=
  x.isFinite = true ∧ ∀ spelling, numberLayout.writeFloat? x = some spelling →
    (Numeral.ofSpelling spelling).toFloat? = some x

theorem readable_of_spelling {x : Float} {spelling : List Char} (hfinite : x.isFinite = true)
    (hwrite : numberLayout.writeFloat? x = some spelling)
    (hread : (Numeral.ofSpelling spelling).toFloat? = some x) : Readable x :=
  ⟨hfinite, fun s hs => by rwa [Option.some.inj (hs.symm.trans hwrite)]⟩

theorem float?_ofFloat {x : Float} (h : Readable x) : (Json.ofFloat x).float? = some x := by
  obtain ⟨spelling, hs⟩ := numberLayout.writeFloat?_of_isFinite h.1
  simp [ofFloat, hs, float?, h.2 spelling hs]

end Json

end ModuleGraph
