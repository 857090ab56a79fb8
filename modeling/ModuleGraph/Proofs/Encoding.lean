import ModuleGraph.Text.Raw
import ModuleGraph.Proofs.TextPieces
import Mathlib.Data.String.Basic

namespace ModuleGraph.Utf8

theorem encodeChar_append_lt {c d : Char} (h : c < d) (x y : List UInt8) :
    String.utf8EncodeChar c ++ x < String.utf8EncodeChar d ++ y := by
  have hlt : c.val.toNat < d.val.toNat := h
  have hd : d.val.toNat < 0x110000 := by
    have := d.valid
    simp only [UInt32.isValidChar, Nat.isValidChar] at this
    omega
  have hdigit : ∀ n, n / 4096 = n / 64 / 64 := by omega
  have hdigit' : ∀ n, n / 262144 = n / 64 / 64 / 64 := by omega
  simp only [String.utf8EncodeChar]
  generalize c.val.toNat = v at *
  generalize d.val.toNat = w at *
  split_ifs <;>
    simp only [List.cons_append, List.nil_append, List.cons_lt_cons_iff, UInt8.lt_iff_toNat_lt, ← UInt8.toNat_inj,
      UInt8.toNat_ofNat', hdigit, hdigit'] <;>
    omega

theorem flatMap_encodeChar_lt {s t : List Char} (h : s < t) :
    s.flatMap String.utf8EncodeChar < t.flatMap String.utf8EncodeChar := by
  induction s generalizing t with
  | nil =>
    cases t with
    | nil => exact absurd h (by decide)
    | cons d t =>
      rw [List.flatMap_nil, List.flatMap_cons]
      cases hd : String.utf8EncodeChar d with
      | nil => exact absurd hd String.utf8EncodeChar_ne_nil
      | cons b bs => exact List.nil_lt_cons b _
  | cons c s ih =>
    cases t with
    | nil => exact absurd h (by simp)
    | cons d t =>
      rw [List.flatMap_cons, List.flatMap_cons]
      rcases List.cons_lt_cons_iff.mp h with hcd | ⟨rfl, hst⟩
      · exact encodeChar_append_lt hcd _ _
      · exact List.append_left_lt (ih hst)

theorem encode_lt {s t : String} (h : s < t) : encode s < encode t :=
  flatMap_encodeChar_lt (String.lt_iff_toList_lt.mp h)

theorem bytes_append (s t : List Char) : bytes (s ++ t) = bytes s ++ bytes t :=
  List.flatMap_append

theorem bytes_cons (c : Char) (s : List Char) : bytes (c :: s) = bytes [c] ++ bytes s :=
  bytes_append [c] s

@[simp] theorem bytes_eq_nil_iff {s : List Char} : bytes s = [] ↔ s = [] := by
  cases s with
  | nil => simp [bytes]
  | cons c s => simp [bytes, String.utf8EncodeChar_ne_nil]

section SingleByte

-- A character that is encoded by one byte is not hidden in the encoding of another one.

variable {a : Char} {x : UInt8} (ha : bytes [a] = [x])
include ha

theorem toNat_of_single : x.toNat = a.val.toNat ∧ x.toNat < 0x80 := by
  rw [bytes, List.flatMap_singleton, String.utf8EncodeChar] at ha
  generalize a.val.toNat = v at *
  split_ifs at ha with hv
  · rw [← List.singleton_inj.mp ha, UInt8.toNat_ofNat']
    omega
  all_goals simp at ha

theorem not_mem_bytes_of_ne {c : Char} (h : c ≠ a) : x ∉ bytes [c] := by
  obtain ⟨hx, hlt⟩ := toNat_of_single ha
  have hne : c.val.toNat ≠ x.toNat := fun heq => h (Char.ext (UInt32.toNat_inj.mp (heq.trans hx)))
  rw [bytes, List.flatMap_singleton, String.utf8EncodeChar]
  generalize c.val.toNat = v at *
  split_ifs <;>
    simp only [List.mem_cons, List.not_mem_nil, or_false, ← UInt8.toNat_inj, UInt8.toNat_ofNat'] <;>
    omega

theorem mem_bytes_iff {s : List Char} : x ∈ bytes s ↔ a ∈ s := by
  induction s with
  | nil => simp [bytes]
  | cons c s ih =>
    rw [bytes_cons, List.mem_append, List.mem_cons, ih]
    by_cases hc : c = a
    · simp [hc, ha]
    · simp [not_mem_bytes_of_ne ha hc, Ne.symm hc]

theorem pieces_bytes (s : List Char) : Text.pieces (· == x) (bytes s) = (Text.pieces (· == a) s).map bytes := by
  induction s with
  | nil => rfl
  | cons c s ih =>
    obtain ⟨w, ws, hs⟩ := Text.exists_pieces (· == a) s
    rw [bytes_cons]
    by_cases hc : c = a
    · rw [hc, ha, List.singleton_append, @Text.pieces_sep _ (· == x) x (beq_self_eq_true x),
        @Text.pieces_sep _ (· == a) a (beq_self_eq_true a), ih]
      rfl
    · have hpieces : Text.pieces (· == x) (bytes [c]) = [bytes [c]] :=
        Text.pieces_of_forall (Text.forall_beq_of_not_mem (not_mem_bytes_of_ne ha hc))
      rw [Text.pieces_append, hpieces, ih, hs, @Text.pieces_cons _ (· == a) c s w ws (beq_eq_false_iff_ne.mpr hc) hs,
        List.map_cons, List.map_cons, bytes_cons c w]
      rfl

end SingleByte

section Decoding

theorem isTail_iff {b : UInt8} : isTail b = true ↔ 0x80 ≤ b.toNat ∧ b.toNat ≤ 0xBF := by
  simp [isTail, UInt8.le_iff_toNat_le]

theorem isSecond_iff {first b : UInt8} : isSecond first b = true ↔
    0x80 ≤ b.toNat ∧ b.toNat ≤ 0xBF ∧ (first.toNat = 0xE0 → 0xA0 ≤ b.toNat) ∧ (first.toNat = 0xED → b.toNat ≤ 0x9F) ∧
      (first.toNat = 0xF0 → 0x90 ≤ b.toNat) ∧ (first.toNat = 0xF4 → b.toNat ≤ 0x8F) := by
  simp only [isSecond, secondRange, ← UInt8.toNat_inj, UInt8.reduceToNat]
  split_ifs <;> simp only [UInt8.le_iff_toNat_le, UInt8.reduceToNat, Bool.and_eq_true, decide_eq_true_eq] <;> omega

/-- A byte below `0x80` belongs to no longer sequence, so what is read before it does not depend on it. -/
theorem next_append_ascii {x : UInt8} (hx : x.toNat < 0x80) (first : UInt8) (a b : List UInt8) :
    next first (a ++ x :: b) = ((next first a).1, (next first a).2 ++ x :: b) := by
  have htail : isTail x = false := by
    rw [Bool.eq_false_iff, ne_eq, isTail_iff]
    omega
  have hsecond : isSecond first x = false := by
    rw [Bool.eq_false_iff, ne_eq, isSecond_iff]
    omega
  unfold next
  split_ifs
  · rfl
  · rcases a with _ | ⟨y, a⟩
    · simp [htail]
    · simp only [List.cons_append]
      split_ifs <;> rfl
  · rcases a with _ | ⟨y, _ | ⟨z, a⟩⟩
    · simp [hsecond]
    · simp only [List.cons_append, List.nil_append, htail]
      split_ifs <;> simp_all
    · simp only [List.cons_append]
      split_ifs <;> rfl
  · rcases a with _ | ⟨y, _ | ⟨z, _ | ⟨w, a⟩⟩⟩
    · simp [hsecond]
    · simp only [List.cons_append, List.nil_append, htail]
      split_ifs <;> simp_all
    · simp only [List.cons_append, List.nil_append, htail]
      split_ifs <;> simp_all
    · simp only [List.cons_append]
      split_ifs <;> rfl
  · rfl

theorem next_isSuffix (first : UInt8) (rest : List UInt8) : (next first rest).2 <:+ rest := by
  unfold next
  split_ifs
  · exact List.suffix_refl _
  · rcases rest with _ | ⟨x, a⟩
    · exact List.suffix_refl _
    · dsimp only
      split_ifs <;> simp
  · rcases rest with _ | ⟨x, _ | ⟨y, a⟩⟩
    · exact List.suffix_refl _
    all_goals
      dsimp only
      split_ifs <;> simp [List.suffix_cons_iff]
  · rcases rest with _ | ⟨x, _ | ⟨y, _ | ⟨z, a⟩⟩⟩
    · exact List.suffix_refl _
    all_goals
      dsimp only
      split_ifs <;> simp [List.suffix_cons_iff]
  · exact List.suffix_refl _

theorem length_next_le (first : UInt8) (rest : List UInt8) : (next first rest).2.length ≤ rest.length :=
  (next_isSuffix first rest).length_le

/-- The bytes are gone through as they are read. -/
@[elab_as_elim]
theorem next_induction {motive : List UInt8 → Prop} (nil : motive [])
    (cons : ∀ b bs, motive (next b bs).2 → motive (b :: bs)) (bytes : List UInt8) : motive bytes := by
  induction hn : bytes.length using Nat.strong_induction_on generalizing bytes with
  | _ n ih =>
    subst hn
    cases bytes with
    | nil => exact nil
    | cons b bs => exact cons b bs (ih _ (Nat.lt_succ_of_le (length_next_le b bs)) _ rfl)

theorem units_succ (fuel : Nat) (b : UInt8) (bs : List UInt8) :
    units (fuel + 1) (b :: bs) = (next b bs).1 :: units fuel (next b bs).2 := rfl

theorem units_eq_of_length_le {m n : Nat} {bytes : List UInt8} (hm : bytes.length ≤ m) (hn : bytes.length ≤ n) :
    units m bytes = units n bytes := by
  induction m generalizing n bytes with
  | zero =>
    rw [List.eq_nil_of_length_eq_zero (Nat.le_zero.mp hm)]
    cases n <;> rfl
  | succ m ih =>
    cases bytes with
    | nil => cases n <;> rfl
    | cons b bs =>
      cases n with
      | zero => exact absurd hn (Nat.not_succ_le_zero _)
      | succ n =>
        have hlength := length_next_le b bs
        rw [units_succ, units_succ, ih (hlength.trans (Nat.le_of_succ_le_succ hm))
          (hlength.trans (Nat.le_of_succ_le_succ hn))]

theorem units_cons (b : UInt8) (bs : List UInt8) :
    units (b :: bs).length (b :: bs) = (next b bs).1 :: units (next b bs).2.length (next b bs).2 := by
  rw [List.length_cons, units_succ, units_eq_of_length_le (length_next_le b bs) (Nat.le_refl _)]

theorem units_append_ascii {x : UInt8} (hx : x.toNat < 0x80) (a b : List UInt8) :
    units (a ++ x :: b).length (a ++ x :: b) = units a.length a ++ some (Char.ofNat x.toNat) :: units b.length b := by
  induction a using next_induction with
  | nil =>
    have hnext : next x b = (some (Char.ofNat x.toNat), b) := by
      unfold next
      rw [if_pos (UInt8.lt_iff_toNat_lt.mpr hx)]
    rw [List.nil_append, units_cons, hnext]
    rfl
  | cons y a ih => rw [List.cons_append, units_cons, next_append_ascii hx, ih, units_cons, List.cons_append]

theorem decodeLossy_append_ascii {x : UInt8} (hx : x.toNat < 0x80) (a b : List UInt8) :
    decodeLossy (a ++ x :: b) = decodeLossy a ++ Char.ofNat x.toNat :: decodeLossy b := by
  rw [decodeLossy, units_append_ascii hx, List.map_append, List.map_cons]
  rfl

theorem decode?_eq_some_iff_units {bytes : List UInt8} {s : List Char} :
    decode? bytes = some s ↔ units bytes.length bytes = s.map some := by
  rw [decode?]
  generalize units bytes.length bytes = us
  induction us generalizing s with
  | nil => cases s <;> simp
  | cons u us ih =>
    cases u with
    | none => cases s <;> simp
    | some c => cases s <;> simp [Option.bind_eq_some_iff, ih, and_comm]

theorem decode?_append_ascii_iff {x : UInt8} (hx : x.toNat < 0x80) {a b : List UInt8} {s : List Char} :
    decode? (a ++ x :: b) = some s ↔
      ∃ u v, decode? a = some u ∧ decode? b = some v ∧ s = u ++ Char.ofNat x.toNat :: v := by
  simp only [decode?_eq_some_iff_units, units_append_ascii hx]
  constructor
  · intro h
    obtain ⟨u, w, rfl, hu, hw⟩ := List.map_eq_append_iff.mp h.symm
    obtain ⟨c, v, rfl, hc, hv⟩ := List.map_eq_cons_iff.mp hw
    exact ⟨u, v, hu.symm, hv.symm, by rw [Option.some.inj hc]⟩
  · rintro ⟨u, v, hu, hv, rfl⟩
    rw [hu, hv, List.map_append, List.map_cons]

theorem decode?_of_decodeLossy {bytes : List UInt8} {s : List Char} (h : decodeLossy bytes = s) (hs : '\uFFFD' ∉ s) :
    decode? bytes = some s := by
  rw [decode?_eq_some_iff_units]
  rw [decodeLossy] at h
  generalize units bytes.length bytes = us at *
  subst h
  rw [List.map_map]
  refine (List.map_congr_left fun u hu => ?_).trans (List.map_id us) |>.symm
  cases u with
  | none => exact absurd (List.mem_map_of_mem hu) hs
  | some c => rfl

theorem decodeLossy_of_decode? {bytes : List UInt8} {s : List Char} (h : decode? bytes = some s) :
    decodeLossy bytes = s := by
  rw [decodeLossy, decode?_eq_some_iff_units.mp h, List.map_map]
  exact List.map_id s

end Decoding

section ReadBack

theorem next_encodeChar (c : Char) (rest : List UInt8) :
    ∃ b bs, String.utf8EncodeChar c = b :: bs ∧ next b (bs ++ rest) = (some c, rest) := by
  have hvalid : c.val.toNat < 0xD800 ∨ 0xDFFF < c.val.toNat ∧ c.val.toNat < 0x110000 := c.valid
  have hchar : ∀ n, n = c.val.toNat → Char.ofNat n = c := by
    rintro _ rfl
    exact Char.ofNat_toNat c
  unfold String.utf8EncodeChar
  dsimp only
  generalize c.val.toNat = v at *
  split_ifs with h1 h2 h3 <;> refine ⟨_, _, rfl, ?_⟩ <;>
    simp only [next, isTail_iff, isSecond_iff, low6, UInt8.lt_iff_toNat_lt, UInt8.le_iff_toNat_le, UInt8.toNat_ofNat',
      UInt8.reduceToNat, List.cons_append, List.nil_append, Bool.and_eq_true, decide_eq_true_eq]
  · rw [if_pos (by omega), hchar _ (by omega)]
  · rw [if_neg (by omega), if_pos (by omega), if_pos (by omega), hchar _ (by omega)]
  · rw [if_neg (by omega), if_neg (by omega), if_pos (by omega), if_pos (by omega), if_pos (by omega),
      hchar _ (by omega)]
  · rw [if_neg (by omega), if_neg (by omega), if_neg (by omega), if_pos (by omega), if_pos (by omega),
      if_pos (by omega), if_pos (by omega), hchar _ (by omega)]

theorem units_bytes (s : List Char) : units (bytes s).length (bytes s) = s.map some := by
  induction s with
  | nil => rfl
  | cons c s ih =>
    obtain ⟨b, bs, hc, hnext⟩ := next_encodeChar c (bytes s)
    have hbytes : bytes (c :: s) = b :: (bs ++ bytes s) := by
      rw [bytes, List.flatMap_cons, hc, ← bytes, List.cons_append]
    rw [hbytes, units_cons, hnext, ih, List.map_cons]

theorem decode?_bytes (s : List Char) : decode? (bytes s) = some s :=
  decode?_eq_some_iff_units.mpr (units_bytes s)

theorem decodeLossy_bytes (s : List Char) : decodeLossy (bytes s) = s :=
  decodeLossy_of_decode? (decode?_bytes s)

theorem utf8EncodeChar_ofNat {n : Nat} (h : n < 0xD800 ∨ 0xDFFF < n ∧ n < 0x110000) :
    String.utf8EncodeChar (Char.ofNat n) =
      if n ≤ 127 then [UInt8.ofNat n]
      else if n ≤ 2047 then [UInt8.ofNat (n / 64 % 32 + 192), UInt8.ofNat (n % 64 + 128)]
      else if n ≤ 65535 then
        [UInt8.ofNat (n / 4096 % 16 + 224), UInt8.ofNat (n / 64 % 64 + 128), UInt8.ofNat (n % 64 + 128)]
      else [UInt8.ofNat (n / 262144 % 8 + 240), UInt8.ofNat (n / 4096 % 64 + 128), UInt8.ofNat (n / 64 % 64 + 128),
        UInt8.ofNat (n % 64 + 128)] := by
  have hn : (Char.ofNat n).val.toNat = n := by
    have hvalid : n.isValidChar := h
    rw [Char.ofNat, dif_pos hvalid]
    rfl
  unfold String.utf8EncodeChar
  rw [hn]

theorem encodeChar_of_next {first : UInt8} {rest rest' : List UInt8} {c : Char} (h : next first rest = (some c, rest')) :
    String.utf8EncodeChar c ++ rest' = first :: rest := by
  have hbyte : ∀ (b : UInt8) n, b.toNat = n % 256 → UInt8.ofNat n = b := by
    intro b n hn
    rw [← UInt8.toNat_inj, UInt8.toNat_ofNat', hn]
  have hlt := fun b : UInt8 => b.toNat_lt
  have hread : ∀ {n : Nat} {bs : List UInt8}, (some (Char.ofNat n), bs) = (some c, rest') → c = Char.ofNat n ∧ rest' = bs := by
    intro n bs heq
    exact ⟨(Option.some.inj (Prod.mk.inj heq).1).symm, (Prod.mk.inj heq).2.symm⟩
  unfold next at h
  simp only [isTail_iff, isSecond_iff, low6, UInt8.lt_iff_toNat_lt, UInt8.le_iff_toNat_le, UInt8.reduceToNat,
    Bool.and_eq_true, decide_eq_true_eq] at h
  split_ifs at h with h1 h2 h3 h4
  · obtain ⟨rfl, rfl⟩ := hread h
    rw [utf8EncodeChar_ofNat (by omega), if_pos (by omega), hbyte first _ (by omega)]
    rfl
  · rcases rest with _ | ⟨x, rest⟩ <;> dsimp only at h
    · cases h
    · split_ifs at h
      · obtain ⟨rfl, rfl⟩ := hread h
        rw [utf8EncodeChar_ofNat (by omega), if_neg (by omega), if_pos (by omega), hbyte first _ (by omega),
          hbyte x _ (by omega)]
        rfl
      · cases h
  · rcases rest with _ | ⟨x, _ | ⟨y, rest⟩⟩ <;> dsimp only at h
    · cases h
    · split_ifs at h <;> cases h
    · split_ifs at h
      · obtain ⟨rfl, rfl⟩ := hread h
        rw [utf8EncodeChar_ofNat (by omega), if_neg (by omega), if_neg (by omega), if_pos (by omega),
          hbyte first _ (by omega), hbyte x _ (by omega), hbyte y _ (by omega)]
        rfl
      · cases h
      · cases h
  · rcases rest with _ | ⟨x, _ | ⟨y, _ | ⟨z, rest⟩⟩⟩ <;> dsimp only at h
    · cases h
    · split_ifs at h <;> cases h
    · split_ifs at h <;> cases h
    · split_ifs at h
      · obtain ⟨rfl, rfl⟩ := hread h
        rw [utf8EncodeChar_ofNat (by omega), if_neg (by omega), if_neg (by omega), if_neg (by omega),
          hbyte first _ (by omega), hbyte x _ (by omega), hbyte y _ (by omega), hbyte z _ (by omega)]
        rfl
      · cases h
      · cases h
      · cases h
  · cases h

theorem bytes_subset_of_mem_decodeLossy {c : Char} (hc : c ≠ '\uFFFD') {b : List UInt8} (h : c ∈ decodeLossy b) :
    bytes [c] ⊆ b := by
  obtain ⟨u, hu, huc⟩ := List.mem_map.mp h
  have hsome : u = some c := by
    cases u with
    | none => exact absurd huc.symm hc
    | some d => rw [← huc, Option.getD_some]
  clear h huc
  induction b using next_induction with
  | nil => cases hu
  | cons x b ih =>
    rw [units_cons] at hu
    rcases List.mem_cons.mp hu with hfirst | hrest
    · have hnext : next x b = (some c, (next x b).2) := Prod.ext (hfirst.symm.trans hsome) rfl
      rw [bytes, List.flatMap_singleton, ← encodeChar_of_next hnext]
      exact List.subset_append_left _ _
    · exact fun y hy => List.mem_cons_of_mem x ((next_isSuffix x b).subset (ih hrest hy))

theorem bytes_of_decode? {b : List UInt8} {s : List Char} (h : decode? b = some s) : bytes s = b := by
  rw [decode?_eq_some_iff_units] at h
  induction b using next_induction generalizing s with
  | nil => cases s with
    | nil => rfl
    | cons c s => cases h
  | cons x b ih =>
    rw [units_cons] at h
    obtain ⟨c, t, rfl, hc, ht⟩ := List.map_eq_cons_iff.mp h.symm
    have hnext : next x b = (some c, (next x b).2) := Prod.ext hc.symm rfl
    rw [← encodeChar_of_next hnext, ← ih ht.symm, bytes, List.flatMap_cons, bytes]

theorem decode?_eq_some_iff {b : List UInt8} {s : List Char} : decode? b = some s ↔ b = bytes s := by
  constructor
  · exact fun h => (bytes_of_decode? h).symm
  · rintro rfl
    exact decode?_bytes s

end ReadBack

end ModuleGraph.Utf8

namespace ModuleGraph.RawText

@[simp] theorem toList_ofString (s : String) : (ofString s).toList = Utf8.bytes s.toList := rfl

@[simp] theorem toList_append (s t : RawText) : (s ++ t).toList = s.toList ++ t.toList := rfl

theorem append_assoc (s t u : RawText) : s ++ t ++ u = s ++ (t ++ u) := by
  ext1
  simp

theorem append_right_cancel_iff {s t u : RawText} : s ++ u = t ++ u ↔ s = t := by
  simp [RawText.ext_iff]

theorem ofString_append (s t : String) : ofString (s ++ t) = ofString s ++ ofString t := by
  ext1
  simp [Utf8.bytes_append]

@[simp] theorem lossy_ofString (s : String) : (ofString s).lossy = s := by
  rw [lossy, toList_ofString, Utf8.decodeLossy_bytes, String.ofList_toList]

theorem text?_eq_some_iff {t : RawText} {s : String} : t.text? = some s ↔ t = ofString s := by
  rw [text?, Option.map_eq_some_iff]
  constructor
  · rintro ⟨cs, hcs, rfl⟩
    ext1
    rw [toList_ofString, String.toList_ofList]
    exact Utf8.decode?_eq_some_iff.mp hcs
  · rintro rfl
    exact ⟨s.toList, Utf8.decode?_bytes _, String.ofList_toList⟩

@[simp] theorem text?_ofString (s : String) : (ofString s).text? = some s :=
  text?_eq_some_iff.mpr rfl

theorem lossy_eq_iff {t : RawText} {s : String} (hs : '\uFFFD' ∉ s.toList) : t.lossy = s ↔ t = ofString s := by
  constructor
  · rintro rfl
    rw [lossy, String.toList_ofList] at hs
    rw [← text?_eq_some_iff, text?, Utf8.decode?_of_decodeLossy rfl hs]
    rfl
  · rintro rfl
    exact lossy_ofString s

theorem ofString_lossy {t : RawText} (h : t.text?.isSome) : ofString t.lossy = t := by
  obtain ⟨s, hs⟩ := Option.isSome_iff_exists.mp h
  rw [text?_eq_some_iff.mp hs, lossy_ofString]

theorem not_mem_lossy {t : RawText} {a : Char} {x : UInt8} (ha : Utf8.bytes [a] = [x]) (h : x ∉ t.toList) :
    a ∉ t.lossy.toList := by
  intro hmem
  rw [lossy, String.toList_ofList] at hmem
  have hne : a ≠ '\uFFFD' := by
    rintro rfl
    exact absurd (congrArg List.length ha) (show (3 : Nat) ≠ 1 by decide)
  exact h (Utf8.bytes_subset_of_mem_decodeLossy hne hmem (ha ▸ List.mem_singleton_self x))

theorem ofString_injective : Function.Injective ofString := by
  intro s t h
  rw [← lossy_ofString s, h, lossy_ofString]

end ModuleGraph.RawText
