import Masonry.Save.Archive
import Masonry.Proofs.Save.Inversion

/-!
# Archives are read as they are written

`Archive.decode` inverts `Archive.writes` on the archives that fit the format (`Archive.Fits`): an
archive that fits is read back whatever follows it, and bytes that are read as an archive are the
bytes that are written for it. Each decoder of a part inverts the writing of that part.
-/

namespace Masonry.Save

theorem splitExactly_eq_some_iff {k : Nat} {input front rest : List UInt8} :
    splitExactly k input = some (front, rest) ↔ front.length = k ∧ input = front ++ rest := by
  induction k generalizing input front with
  | zero =>
    simp only [splitExactly, Option.some.injEq, Prod.mk.injEq, List.length_eq_zero_iff]
    constructor
    · rintro ⟨rfl, rfl⟩
      exact ⟨rfl, rfl⟩
    · rintro ⟨rfl, rfl⟩
      exact ⟨rfl, rfl⟩
  | succ k ih =>
    cases input with
    | nil =>
      simp only [splitExactly, reduceCtorEq, false_iff, not_and]
      rintro hlength hnil
      rw [(List.append_eq_nil_iff.1 hnil.symm).1] at hlength
      cases hlength
    | cons b input =>
      simp only [splitExactly, Option.map_eq_some_iff, Prod.mk.injEq, Prod.exists]
      constructor
      · rintro ⟨front', rest', hsplit, rfl, rfl⟩
        obtain ⟨rfl, rfl⟩ := ih.1 hsplit
        exact ⟨rfl, rfl⟩
      · rintro ⟨hlength, happend⟩
        obtain _ | ⟨b', front'⟩ := front
        · cases hlength
        · obtain ⟨rfl, rfl⟩ := List.cons_eq_cons.1 happend
          exact ⟨front', rest, ih.2 ⟨Nat.succ.inj hlength, rfl⟩, rfl, rfl⟩

theorem toList_loop_eq (bytes : ByteArray) (i : Nat) (read : List UInt8) :
    ByteArray.toList.loop bytes i read = read.reverse ++ bytes.data.toList.drop i := by
  fun_induction ByteArray.toList.loop bytes i read with
  | case1 i read hi ih =>
    have hlength : i < bytes.data.toList.length := hi
    have hget : bytes.get! i = bytes.data.toList[i] := getElem!_pos bytes.data i hi
    rw [ih, List.drop_eq_getElem_cons hlength, hget, List.reverse_cons, List.append_assoc,
      List.singleton_append]
  | case2 i read hi =>
    rw [List.drop_eq_nil_of_le (Nat.le_of_not_lt hi), List.append_nil]

theorem encodeText_eq (s : String) : encodeText s = s.toByteArray.data.toList := by
  rw [encodeText, String.toUTF8_eq_toByteArray, ByteArray.toList, toList_loop_eq]
  rfl

theorem encodeText_inj {s t : String} : encodeText s = encodeText t ↔ s = t := by
  rw [encodeText_eq, encodeText_eq, Array.toList_inj, ← ByteArray.ext_iff, String.toByteArray_inj]

/-- The bytes of a text spell it, and no other bytes do. -/
theorem decodeText_eq_ok_iff {bytes : List UInt8} {s : String} :
    decodeText bytes = .ok s ↔ encodeText s = bytes := by
  have hbytes : encodeText s = bytes ↔ s.toByteArray = ByteArray.mk bytes.toArray := by
    rw [encodeText_eq, ByteArray.ext_iff]
    exact @Array.toList_inj _ s.toByteArray.data bytes.toArray
  rw [hbytes, decodeText, String.fromUTF8?]
  split
  next text htext =>
    split at htext
    · rw [Option.some.injEq] at htext
      subst htext
      rw [Except.ok.injEq, ← String.toByteArray_inj, eq_comm]
      rfl
    · cases htext
  next hnone =>
    split at hnone
    · cases hnone
    · rename_i hinvalid
      simp only [reduceCtorEq, false_iff]
      intro h
      exact hinvalid (h ▸ s.isValidUTF8)

namespace Decoder

theorem bytes_eq_ok_iff {k : Nat} {input front rest : List UInt8} :
    bytes k input = .ok (front, rest) ↔ front.length = k ∧ input = front ++ rest := by
  rw [← splitExactly_eq_some_iff, bytes]
  cases splitExactly k input with
  | none => simp
  | some r => simp [Prod.ext_iff]

theorem inverts_bytes (k : Nat) : Inverts (bytes k) (fun bs => [.bytes bs]) (·.length = k) where
  read bs hbs := ⟨bs, by simp [Write.run], fun _ => bytes_eq_ok_iff.2 ⟨hbs, rfl⟩⟩
  written {input rest bs} hread := by
    obtain ⟨hlength, hinput⟩ := bytes_eq_ok_iff.1 hread
    exact ⟨hlength, bs, by simp [Write.run], hinput⟩

theorem inverts_number (k : Nat) :
    Inverts (number k) (fun n => [.bytes (bigEndian k n)]) (· < bigEndianBound k) := by
  refine (inverts_bytes k).map ofBigEndian (bigEndian k) (fun n hn => ?_) (fun bs hbs => ?_)
  · exact ⟨length_bigEndian k n, by rw [ofBigEndian_bigEndian, Nat.mod_eq_of_lt hn]⟩
  · subst hbs
    exact ⟨ofBigEndian_lt bs, bigEndian_ofBigEndian bs⟩

theorem inverts_int32 : Inverts int32 (fun n => [.int32 n]) (fun _ => True) := by
  refine (inverts_number 4).map (fun n => (UInt32.ofNat n).toInt32) (·.toUInt32.toNat)
    (fun n _ => ?_) (fun n hn => ?_)
  · exact ⟨n.toUInt32.toNat_lt, by simp⟩
  · exact ⟨trivial, Nat.mod_eq_of_lt hn⟩

theorem inverts_word64 : Inverts word64 (fun w => [.word64 w]) (fun _ => True) := by
  refine (inverts_number 8).map UInt64.ofNat UInt64.toNat (fun n _ => ?_) (fun n hn => ?_)
  · exact ⟨n.toNat_lt, by simp⟩
  · exact ⟨trivial, Nat.mod_eq_of_lt hn⟩

theorem inverts_count : Inverts count (fun n => [Write.count n]) (· < 2147483648) := by
  suffices h : Inverts count (fun n => [.int32 (Int32.ofNat n)] ++ []) (· < 2147483648) from
    h.congr (fun _ => Iff.rfl) (fun n hn => by simp [Write.count, hn])
  refine .bind Int32.ofNat inverts_int32 (fun _ _ => trivial) fun n _ => .guard (fun hn => ?_) ?_
  · refine (Inverts.pure _).congr (fun k => ?_) (fun _ _ => rfl)
    constructor
    · rintro ⟨rfl, hk⟩
      exact (Int32.toNatClampNeg_ofNat_of_lt hk).symm
    · rintro rfl
      exact ⟨Int32.ofNat_toNatClampNeg n (Int32.not_lt.1 hn), n.toNatClampNeg_lt⟩
  · rintro k ⟨rfl, hk⟩
    rw [Int32.not_lt, Int32.le_iff_toInt_le, Int32.toInt_ofNat_of_lt hk]
    exact Int.natCast_nonneg k

theorem inverts_text : Inverts text Write.text (fun s => (encodeText s).length < 65536) := by
  suffices h : Inverts text
      (fun s => [.bytes (bigEndian 2 (encodeText s).length)] ++ ([.bytes (encodeText s)] ++ []))
      (fun s => (encodeText s).length < 65536) from
    h.congr (fun _ => Iff.rfl) (fun s hs => by simp [Write.text, hs])
  refine .bind (fun s => (encodeText s).length) (inverts_number 2) (fun _ h => h) fun n hn => ?_
  refine .bind encodeText (inverts_bytes n) (fun _ h => h.1) fun bs hbs => ?_
  cases htext : decodeText bs with
  | ok s =>
    obtain rfl := decodeText_eq_ok_iff.1 htext
    refine (Inverts.pure s).congr (fun t => ?_) (fun _ _ => rfl)
    constructor
    · rintro ⟨ht, -⟩
      exact encodeText_inj.1 ht
    · rintro rfl
      exact ⟨rfl, hbs, hbs ▸ hn⟩
  | error fault =>
    refine (Inverts.throw _).congr (fun t => ⟨?_, False.elim⟩) (fun _ _ => rfl)
    rintro ⟨ht, -⟩
    rw [decodeText_eq_ok_iff.2 ht] at htext
    cases htext

/-! A part of a value is read before the rest of the value. -/

namespace Inverts

variable {β γ : Type} {writes : β → List Write} {P : β → Prop}

theorem int32_bind {f : Int32 → Decoder β} {part : β → Int32}
    (hf : ∀ n, Inverts (f n) writes (fun b => part b = n ∧ P b)) :
    Inverts (int32 >>= f) (fun b => .int32 (part b) :: writes b) P :=
  inverts_int32.bind part (fun _ _ => trivial) (fun n _ => hf n)

theorem word64_bind {f : UInt64 → Decoder β} {part : β → UInt64}
    (hf : ∀ w, Inverts (f w) writes (fun b => part b = w ∧ P b)) :
    Inverts (word64 >>= f) (fun b => .word64 (part b) :: writes b) P :=
  inverts_word64.bind part (fun _ _ => trivial) (fun w _ => hf w)

theorem count_bind {f : Nat → Decoder β} {part : β → Nat} (hP : ∀ b, P b → part b < 2147483648)
    (hf : ∀ n, n < 2147483648 → Inverts (f n) writes (fun b => part b = n ∧ P b)) :
    Inverts (count >>= f) (fun b => Write.count (part b) :: writes b) P :=
  inverts_count.bind part hP hf

theorem text_bind {f : String → Decoder β} {part : β → String}
    (hP : ∀ b, P b → (encodeText (part b)).length < 65536)
    (hf : ∀ s, (encodeText s).length < 65536 → Inverts (f s) writes (fun b => part b = s ∧ P b)) :
    Inverts (text >>= f) (fun b => Write.text (part b) ++ writes b) P :=
  inverts_text.bind part hP hf

theorem times_bind {d : Decoder γ} {one : γ → List Write} {Q : γ → Prop} {n : Nat}
    {f : List γ → Decoder β} {part : β → List γ} (hd : Inverts d one Q)
    (hP : ∀ b, P b → (part b).length = n ∧ ∀ a ∈ part b, Q a)
    (hf : ∀ as, as.length = n ∧ (∀ a ∈ as, Q a) →
      Inverts (f as) writes (fun b => part b = as ∧ P b)) :
    Inverts (Decoder.times n d >>= f) (fun b => (part b).flatMap one ++ writes b) P :=
  (hd.times n).bind part hP hf

end Inverts

end Decoder

/-! ## Archives -/

/-- The number is that of a word of four bytes. -/
def IsInt32 (n : Int) : Prop := -2147483648 ≤ n ∧ n < 2147483648

instance (n : Int) : Decidable (IsInt32 n) := inferInstanceAs (Decidable (_ ∧ _))

theorem isInt32_toInt (n : Int32) : IsInt32 n.toInt := ⟨n.le_toInt, n.toInt_lt⟩

theorem toInt_ofInt_of_isInt32 {n : Int} (h : IsInt32 n) : (Int32.ofInt n).toInt = n :=
  Int32.toInt_ofInt_of_le h.1 h.2

theorem ofNat_index_eq_iff {color : Color} {n : Int32} :
    Int32.ofNat color.index = n ↔ Color.ofIndex? n.toInt = some color := by
  have hindex : (Int32.ofNat color.index).toInt = color.index := by cases color <;> rfl
  rw [Color.ofIndex?_eq_some_iff, ← hindex, Int32.toInt_inj, eq_comm]

/-- The turns and the cell of the stone can be stored. -/
structure StoredStone.Fits (s : StoredStone) : Prop where
  turns : IsInt32 s.turns
  x : IsInt32 s.cell.x
  y : IsInt32 s.cell.y
  z : IsInt32 s.cell.z

/-- The name of the group and the number of its members can be stored. -/
structure GroupFits (g : Group) : Prop where
  name : (encodeText g.name).length < 65536
  members : g.members.length < 2147483648

/-- Everything in the archive can be stored. -/
structure Archive.Fits (a : Archive) : Prop where
  stoneCount : a.stones.length < 2147483648
  stones : ∀ s ∈ a.stones, s.Fits
  groupCount : a.groups.length < 2147483648
  groups : ∀ g ∈ a.groups, GroupFits g

theorem inverts_stone : Decoder.Inverts StoredStone.decode StoredStone.writes StoredStone.Fits := by
  unfold StoredStone.decode StoredStone.writes
  refine .int32_bind fun id => .int32_bind fun insertId => .int32_bind fun index => ?_
  -- Whether there is more to read depends on the color.
  cases hcolor : Color.ofIndex? index.toInt with
  | none =>
    refine (Decoder.Inverts.throw _).congr (fun s => ⟨?_, False.elim⟩) (fun _ _ => rfl)
    rintro ⟨hs, -⟩
    rw [ofNat_index_eq_iff.1 hs] at hcolor
    cases hcolor
  | some color =>
    refine .int32_bind fun code => .int32_bind fun turns => .int32_bind fun x => .int32_bind fun y =>
      .int32_bind fun z => (Decoder.Inverts.pure _).congr (fun s => ?_) (fun _ _ => rfl)
    constructor
    · rintro ⟨rfl, rfl, rfl, rfl, rfl, hindex, rfl, rfl, hs⟩
      obtain rfl : s.color = color := by
        rw [ofNat_index_eq_iff.1 hindex] at hcolor
        exact Option.some.inj hcolor
      simp only [toInt_ofInt_of_isInt32, hs.turns, hs.x, hs.y, hs.z]
    · rintro rfl
      have hfits : StoredStone.Fits ⟨id, insertId, color, code, turns.toInt, ⟨x.toInt, y.toInt, z.toInt⟩⟩ :=
        ⟨isInt32_toInt _, isInt32_toInt _, isInt32_toInt _, isInt32_toInt _⟩
      simp only [hfits, ofNat_index_eq_iff.2 hcolor, Int32.ofInt_toInt, and_self]

theorem inverts_group : Decoder.Inverts decodeGroup writesGroup GroupFits := by
  suffices h : Decoder.Inverts decodeGroup
      (fun g => .int32 g.id :: (Write.text g.name ++
        Write.count g.members.length :: (g.members.flatMap (fun n => [.int32 n]) ++ []))) GroupFits from
    h.congr (fun _ => Iff.rfl) (fun g _ => by simp [writesGroup, List.map_eq_flatMap])
  unfold decodeGroup
  refine .int32_bind fun id => .text_bind (fun _ ⟨_, hg⟩ => hg.name) fun name hname =>
    .count_bind (fun _ ⟨_, _, hg⟩ => hg.members) fun n hn =>
    .times_bind Decoder.inverts_int32 (fun _ ⟨hlength, _⟩ => ⟨hlength, fun _ _ => trivial⟩)
    fun members ⟨hmembers, _⟩ => (Decoder.Inverts.pure _).congr (fun g => ?_) (fun _ _ => rfl)
  constructor
  · rintro ⟨rfl, -, rfl, rfl, -⟩
    rfl
  · rintro rfl
    exact ⟨rfl, hmembers, rfl, rfl, hname, hmembers ▸ hn⟩

/-- What is read as an archive is what is written for it. -/
theorem inverts_archive : Decoder.Inverts Archive.decode Archive.writes Archive.Fits := by
  suffices h : Decoder.Inverts Archive.decode
      (fun a => .int32 magic :: .int32 version :: .int32 a.nextInsert ::
        .word64 a.origin.x :: .word64 a.origin.y :: .word64 a.origin.z ::
        Write.count a.stones.length :: (a.stones.flatMap StoredStone.writes ++
        .int32 a.nextStone :: Write.count a.groups.length :: .int32 a.nextGroup ::
        (a.groups.flatMap writesGroup ++ []))) Archive.Fits from
    h.congr (fun _ => Iff.rfl) (fun a _ => by simp [Archive.writes])
  unfold Archive.decode
  refine .int32_bind fun word => .guard (fun hword => ?_) (fun _ ⟨ha, _⟩ h => h ha.symm)
  refine .int32_bind fun number => .guard (fun hnumber => ?_) (fun _ ⟨ha, _⟩ h => h ha.symm)
  refine .int32_bind fun nextInsert => .word64_bind fun x => .word64_bind fun y => .word64_bind fun z =>
    .count_bind (fun _ ⟨_, _, _, _, _, _, ha⟩ => ha.stoneCount) fun n hn =>
    .times_bind inverts_stone (fun _ ⟨hlength, _, _, _, _, _, _, ha⟩ => ⟨hlength, ha.stones⟩)
    fun stones ⟨hstoneCount, hstones⟩ => .int32_bind fun nextStone =>
    .count_bind (fun _ ⟨_, _, _, _, _, _, _, _, _, ha⟩ => ha.groupCount) fun k hk =>
    .int32_bind fun nextGroup =>
    .times_bind inverts_group (fun _ ⟨_, hlength, _, _, _, _, _, _, _, _, _, ha⟩ => ⟨hlength, ha.groups⟩)
    fun groups ⟨hgroupCount, hgroups⟩ => (Decoder.Inverts.pure _).congr (fun a => ?_) (fun _ _ => rfl)
  constructor
  · rintro ⟨rfl, rfl, -, rfl, rfl, -, rfl, rfl, rfl, rfl, -⟩
    rfl
  · rintro rfl
    exact ⟨rfl, rfl, hgroupCount, rfl, rfl, hstoneCount, rfl, rfl, rfl, rfl, (Decidable.not_not.1 hnumber).symm,
      (Decidable.not_not.1 hword).symm, hstoneCount ▸ hn, hstones, hgroupCount ▸ hk, hgroups⟩

end Masonry.Save
