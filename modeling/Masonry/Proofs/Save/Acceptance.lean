import Masonry.Session
import Masonry.Proofs.Save.ArchiveInversion
import Masonry.Proofs.Save.Format
import Masonry.Proofs.Save.Loading

/-!
# What is loaded and what is refused

A decoder follows a format if it takes exactly the bytes that spell the format and otherwise refuses
with the fault of the field that breaks it (`Decoder.Follows`). A decoder that reads a field and goes
on follows the format of that field if it goes on as the format does. So the decoder of archives
follows `Format.document`, and with it everything that loads one (`load_accepts_format`).
-/

namespace Masonry.Save

theorem splitExactly_eq_none_iff {k : Nat} {input : List UInt8} :
    splitExactly k input = none ↔ input.length < k := by
  induction k generalizing input with
  | zero => simp [splitExactly]
  | succ k ih =>
    cases input with
    | nil => simp [splitExactly]
    | cons b input => simp [splitExactly, ih]

/-- A count of four bytes that is not negative is the number that they spell without a sign. -/
theorem toNatClampNeg_signed {chunk : List UInt8} (hchunk : chunk.length = 4)
    (hcount : 0 ≤ signed chunk) : (signed chunk).toNatClampNeg = ofBigEndian chunk := by
  have hlt : ofBigEndian chunk < 4294967296 := by
    have h := ofBigEndian_lt chunk
    rwa [hchunk] at h
  have hint : (signed chunk).toInt = (ofBigEndian chunk : Int).bmod 4294967296 := by
    rw [signed]
    simp
  rw [Int32.le_iff_toInt_le, hint] at hcount
  rw [← Int32.toNat_toInt, hint]
  have hzero : (0 : Int32).toInt = 0 := rfl
  rw [Int.bmod_def] at hcount ⊢
  omega

theorem ofIndex?_signed {chunk : List UInt8} :
    Color.ofIndex? (signed chunk).toInt = none ↔ ¬(0 ≤ signed chunk ∧ signed chunk ≤ 7) := by
  rw [Int32.le_iff_toInt_le, Int32.le_iff_toInt_le]
  show _ ↔ ¬((0 : Int) ≤ _ ∧ _ ≤ (7 : Int))
  cases (signed chunk).toInt with
  | ofNat n => simp [Color.ofIndex?, Color.all]; omega
  | negSucc n => simp [Color.ofIndex?]

namespace Decoder

variable {β γ : Type}

theorem bytes_eq_error_of_length_lt {k : Nat} {input : List UInt8} (h : input.length < k) :
    bytes k input = .error (.file .endOfInput) := by
  rw [bytes, splitExactly_eq_none_iff.2 h]

theorem bind_eq_of_ok {d : Decoder γ} {k : γ → Decoder β} {input rest : List UInt8} {a : γ}
    (h : d input = .ok (a, rest)) : (d >>= k) input = k a rest := by
  show ((d input).bind fun r => k r.1 r.2) = _
  rw [h]
  rfl

theorem bind_eq_of_error {d : Decoder γ} {k : γ → Decoder β} {input : List UInt8} {fault : SaveFault}
    (h : d input = .error fault) : (d >>= k) input = .error fault := by
  show ((d input).bind fun r => k r.1 r.2) = _
  rw [h]
  rfl

/-- The decoder takes the bytes that spell the format, whatever follows them, and refuses bytes that
break it with the fault that they have. -/
structure Follows (d : Decoder β) (f : Format) : Prop where
  spelled : ∀ {doc}, f.Spelled doc → ∃ b, ∀ rest, d (doc ++ rest) = .ok (b, rest)
  broken : ∀ {input fault}, f.Broken input fault → d input = .error fault

namespace Follows

variable {k : γ → Decoder β} {f : Format} {next : Nat → Format}

theorem pure (b : β) : Follows (Pure.pure b) .done where
  spelled h := by
    cases h
    exact ⟨b, fun _ => rfl⟩
  broken h := by cases h

/-- The bytes of a field are read first: with those that are invalid the decoder fails, with the
others it goes on. -/
theorem bytes_bind {field : Field} {w : Nat} {k : List UInt8 → Decoder β} (hw : w = field.width)
    (hk : ∀ chunk, chunk.length = w → match field.fault? chunk with
      | some fault => k chunk = throw fault
      | none => Follows (k chunk) (next (ofBigEndian chunk))) :
    Follows (bytes w >>= k) (.field field next) := by
  subst hw
  have hread : ∀ {chunk : List UInt8} (rest), chunk.length = field.width →
      (bytes field.width >>= k) (chunk ++ rest) = k chunk rest :=
    fun rest hchunk => bind_eq_of_ok (bytes_eq_ok_iff.2 ⟨hchunk, rfl⟩)
  constructor
  · intro doc h
    cases h with
    | @field _ _ chunk doc hchunk hvalid hdoc =>
      have hgood := hk chunk hchunk
      rw [hvalid] at hgood
      obtain ⟨b, hb⟩ := hgood.spelled hdoc
      exact ⟨b, fun rest => by rw [List.append_assoc, hread _ hchunk, hb]⟩
  · intro input fault h
    cases h with
    | cut hcut => exact bind_eq_of_error (bytes_eq_error_of_length_lt hcut)
    | @invalid _ _ chunk rest _ hchunk hfault =>
      have hbad := hk chunk hchunk
      rw [hfault] at hbad
      rw [hread _ hchunk, hbad]
      rfl
    | @later _ _ chunk rest _ hchunk hvalid hbroken =>
      have hgood := hk chunk hchunk
      rw [hvalid] at hgood
      rw [hread _ hchunk, hgood.broken hbroken]

/-- A signed number is read first. -/
theorem int32_bind {field : Field} {k : Int32 → Decoder β} (hw : 4 = field.width)
    (hk : ∀ chunk, chunk.length = 4 → match field.fault? chunk with
      | some fault => k (signed chunk) = throw fault
      | none => Follows (k (signed chunk)) (next (ofBigEndian chunk))) :
    Follows (int32 >>= k) (.field field next) := by
  have heq : int32 >>= k = bytes 4 >>= fun chunk => k (signed chunk) := by
    simp only [int32, Decoder.number, bind_assoc, pure_bind, signed]
  rw [heq]
  exact bytes_bind hw hk

theorem number_bind {k : Int32 → Decoder β} (hk : ∀ n, Follows (k n) f) :
    Follows (int32 >>= k) (.field .number fun _ => f) :=
  int32_bind rfl fun _ _ => hk _

theorem word_bind {k : UInt64 → Decoder β} (hk : ∀ w, Follows (k w) f) :
    Follows (word64 >>= k) (.field .word fun _ => f) := by
  simp only [word64, Decoder.number, bind_assoc, pure_bind]
  exact bytes_bind rfl fun _ _ => hk _

theorem count_bind {k : Nat → Decoder β} (hk : ∀ n, Follows (k n) (next n)) :
    Follows (count >>= k) (.field .count next) := by
  unfold count
  rw [bind_assoc]
  refine int32_bind rfl fun chunk hchunk => ?_
  simp only [Field.fault?]
  by_cases hcount : 0 ≤ signed chunk
  · rw [if_pos hcount, if_neg (Int32.not_lt.2 hcount)]
    simp only [pure_bind]
    rw [toNatClampNeg_signed hchunk hcount]
    exact hk _
  · rw [if_neg hcount, if_pos (Int32.not_le.1 hcount)]
    rfl

theorem text_bind {k : String → Decoder β} (hk : ∀ s, Follows (k s) f) :
    Follows (text >>= k) (.field .length fun n => .field (.name n) fun _ => f) := by
  simp only [text, Decoder.number, bind_assoc, pure_bind]
  refine bytes_bind rfl fun chunk _ => bytes_bind rfl fun name _ => ?_
  simp only [Field.fault?]
  cases decodeText name with
  | ok s => exact hk s
  | error fault => rfl

/-- A list is read element by element, each part of the format after the other. -/
theorem times_bind {d : Decoder γ} {part : Format → Format}
    (hd : ∀ (k : γ → Decoder β) (f : Format), (∀ a, Follows (k a) f) → Follows (d >>= k) (part f))
    {n : Nat} {k : List γ → Decoder β} (hk : ∀ as, Follows (k as) f) :
    Follows (Decoder.times n d >>= k) (.times part n f) := by
  induction n generalizing k with
  | zero => exact hk []
  | succ n ih =>
    simp only [Decoder.times, bind_assoc, pure_bind]
    exact hd _ _ fun a => ih fun as => hk (a :: as)

/-- What follows the format takes the bytes that spell it from the front of its input, and no
others. -/
theorem eq_ok_iff {d : Decoder β} (h : Follows d f) {input rest : List UInt8} :
    (∃ b, d input = .ok (b, rest)) ↔ ∃ doc, f.Spelled doc ∧ input = doc ++ rest := by
  constructor
  · rintro ⟨b, hb⟩
    rcases f.spelled_or_broken input with ⟨doc, rest', rfl, hdoc⟩ | ⟨fault, hbroken⟩
    · obtain ⟨b', hb'⟩ := h.spelled hdoc
      cases hb.symm.trans (hb' rest')
      exact ⟨doc, hdoc, rfl⟩
    · cases hb.symm.trans (h.broken hbroken)
  · rintro ⟨doc, hdoc, rfl⟩
    obtain ⟨b, hb⟩ := h.spelled hdoc
    exact ⟨b, hb rest⟩

theorem eq_error_iff {d : Decoder β} (h : Follows d f) {input : List UInt8} {fault : SaveFault} :
    d input = .error fault ↔ f.Broken input fault := by
  constructor
  · intro hfault
    rcases f.spelled_or_broken input with ⟨doc, rest, rfl, hdoc⟩ | ⟨fault', hbroken⟩
    · obtain ⟨b, hb⟩ := h.spelled hdoc
      cases hfault.symm.trans (hb rest)
    · cases hfault.symm.trans (h.broken hbroken)
      exact hbroken
  · exact h.broken

/-- What is made of the value afterwards does not matter. -/
theorem map {d : Decoder γ} (h : Follows d f) (g : γ → β) : Follows (d >>= fun a => Pure.pure (g a)) f where
  spelled hdoc := by
    obtain ⟨a, ha⟩ := h.spelled hdoc
    exact ⟨g a, fun rest => bind_eq_of_ok (ha rest)⟩
  broken hbroken := bind_eq_of_error (h.broken hbroken)

end Follows

end Decoder

open Decoder

variable {β : Type}

theorem stone_bind (k : StoredStone → Decoder β) (f : Format) (hk : ∀ s, Follows (k s) f) :
    Follows (StoredStone.decode >>= k) (.stone f) := by
  unfold StoredStone.decode
  simp only [bind_assoc]
  refine .number_bind fun id => .number_bind fun insertId => .int32_bind rfl fun chunk _ => ?_
  simp only [Field.fault?]
  cases hcolor : Color.ofIndex? (signed chunk).toInt with
  | none =>
    rw [if_neg (ofIndex?_signed.1 hcolor)]
    rfl
  | some color =>
    have hrange : 0 ≤ signed chunk ∧ signed chunk ≤ 7 := by
      by_contra h
      rw [ofIndex?_signed.2 h] at hcolor
      cases hcolor
    rw [if_pos hrange]
    simp only [bind_assoc, pure_bind]
    exact .number_bind fun code => .number_bind fun turns => .number_bind fun x => .number_bind fun y =>
      .number_bind fun z => hk _

theorem group_bind (k : Group → Decoder β) (f : Format) (hk : ∀ g, Follows (k g) f) :
    Follows (decodeGroup >>= k) (.group f) := by
  simp only [decodeGroup, bind_assoc, pure_bind]
  exact .number_bind fun id => .text_bind fun name => .count_bind fun n =>
    .times_bind (fun _ _ h => .number_bind h) fun members => hk _

theorem archive_follows : Follows Archive.decode .document := by
  unfold Archive.decode
  refine .int32_bind rfl fun chunk _ => ?_
  simp only [Field.fault?]
  by_cases hmagic : signed chunk = magic
  · rw [if_pos hmagic, if_neg (not_not_intro hmagic)]
    refine .int32_bind rfl fun chunk _ => ?_
    simp only [Field.fault?]
    by_cases hversion : signed chunk = version
    · rw [if_pos hversion, if_neg (not_not_intro hversion)]
      exact .number_bind fun nextInsert => .word_bind fun x => .word_bind fun y => .word_bind fun z =>
        .count_bind fun n => .times_bind stone_bind fun stones => .number_bind fun nextStone =>
        .count_bind fun groupCount => .number_bind fun nextGroup => .times_bind group_bind fun groups =>
        .pure _
    · rw [if_neg hversion, if_pos hversion]
      rfl
  · rw [if_neg hmagic, if_pos hmagic]
    rfl

end Masonry.Save

namespace Masonry.Document

open Save

variable {α : Type} [Scalar α] [Stored α]

theorem loadPart_follows (c : Catalog α) : Decoder.Follows (loadPart c) .document := by
  have hmap := archive_follows.map fun a => (⟨a.nextInsert, .ofArchive c a⟩ : Document α)
  exact hmap

/-- Loading takes the bytes of a well-formed document, whatever follows them and whatever becomes of
its stones, and takes nothing else. All other bytes are refused with the fault of the first field that
is cut off or invalid, and leave a session as it is. -/
theorem load_accepts_format (c : Catalog α) :
    (∀ doc, Format.document.Spelled doc ↔ ∃ d, ∀ rest, loadPart c (doc ++ rest) = .ok (d, rest)) ∧
    (∀ bytes rest, (∃ d, loadPart c bytes = .ok (d, rest)) ↔
      ∃ doc, Format.document.Spelled doc ∧ bytes = doc ++ rest) ∧
    (∀ bytes fault, loadPart c bytes = .error fault ↔ Format.document.Broken bytes fault) ∧
    ∀ (s : Session α) (bytes : List UInt8),
      ((s.load bytes).1 = none ∧ ∃ doc rest, Format.document.Spelled doc ∧ bytes = doc ++ rest) ∨
        ∃ fault, Format.document.Broken bytes fault ∧ s.load bytes = (some fault, s) := by
  have hok := fun c : Catalog α => @Decoder.Follows.eq_ok_iff _ _ _ (loadPart_follows c)
  refine ⟨fun doc => ⟨(loadPart_follows c).spelled, ?_⟩, fun bytes rest => hok c,
    fun bytes fault => (loadPart_follows c).eq_error_iff, fun s bytes => ?_⟩
  · rintro ⟨d, hd⟩
    obtain ⟨doc', hdoc, happend⟩ := (hok c).1 ⟨d, hd []⟩
    rw [List.append_left_injective [] happend]
    exact hdoc
  · cases hload : loadPart s.catalog bytes with
    | ok r =>
      obtain ⟨doc, hdoc, happend⟩ := (hok s.catalog).1 ⟨r.1, hload⟩
      refine .inl ⟨?_, doc, r.2, hdoc, happend⟩
      simp [Session.load, load, hload, Except.map]
    | error fault =>
      refine .inr ⟨fault, (loadPart_follows s.catalog).eq_error_iff.1 hload, ?_⟩
      simp [Session.load, load, hload, Except.map]

end Masonry.Document
