import Masonry.Save.Bytes

/-!
# Decoders that invert writing

A decoder inverts a way of writing (`Decoder.Inverts`) if it reads back every value that was written,
whatever bytes follow, and if it reads a value from no other bytes than those that are written for
it. The relation is closed under the steps that decoders are built of, so that what holds of a whole
archive follows field by field from two facts about big-endian numbers.
-/

namespace Masonry.Save

theorem ofBigEndian_lt (bytes : List UInt8) : ofBigEndian bytes < bigEndianBound bytes.length := by
  rw [← List.reverse_reverse bytes]
  generalize bytes.reverse = digits
  induction digits with
  | nil => simp [ofBigEndian, bigEndianBound]
  | cons b digits ih =>
    have hb := b.toNat_lt
    rw [List.reverse_cons, ofBigEndian_append_singleton]
    simp only [List.length_append, List.length_singleton, bigEndianBound]
    omega

/-- Bytes are the digits of the number that they spell. -/
theorem bigEndian_ofBigEndian (bytes : List UInt8) :
    bigEndian bytes.length (ofBigEndian bytes) = bytes := by
  rw [← List.reverse_reverse bytes]
  generalize bytes.reverse = digits
  induction digits with
  | nil => rfl
  | cons b digits ih =>
    have hb := b.toNat_lt
    rw [List.reverse_cons, ofBigEndian_append_singleton, List.length_append, List.length_singleton,
      bigEndian]
    rw [show (256 * ofBigEndian digits.reverse + b.toNat) / 256 = ofBigEndian digits.reverse by omega, ih]
    congr 2
    apply UInt8.toNat_inj.1
    rw [UInt8.toNat_ofNat']
    omega

/-- Why a step cannot be carried out, whatever room there is. -/
def Write.refused? : Write → Option SaveFault
  | .bytes _ => none
  | .refuse fault => some fault

/-- Without limit writing stops at the first step that is refused, and nowhere else. -/
theorem Write.run_none_snd (ws : List Write) : (Write.run none ws).2 = (ws.filterMap refused?).head? := by
  induction ws with
  | nil => rfl
  | cons w ws ih =>
    cases w with
    | refuse fault => rfl
    | bytes bs => exact ih

/-- Steps that were carried out are carried out before those that follow. -/
theorem Write.run_append {ws ws' : List Write} {bytes bytes' : List UInt8} {fault : Option SaveFault}
    (h : Write.run none ws = (bytes, none)) (h' : Write.run none ws' = (bytes', fault)) :
    Write.run none (ws ++ ws') = (bytes ++ bytes', fault) := by
  induction ws generalizing bytes with
  | nil =>
    cases h
    exact h'
  | cons w ws ih =>
    cases w with
    | refuse f => cases h
    | bytes chunk =>
      simp only [Write.run, Prod.mk.injEq] at h
      obtain ⟨rfl, hrest⟩ := h
      have hws := @ih (Write.run none ws).1 (by rw [← hrest])
      simp only [List.cons_append, Write.run, hws, List.append_assoc]

namespace Decoder

variable {β γ : Type}

theorem bind_eq_ok_iff {d : Decoder γ} {f : γ → Decoder β} {input rest : List UInt8} {b : β} :
    (d >>= f) input = .ok (b, rest) ↔ ∃ a mid, d input = .ok (a, mid) ∧ f a mid = .ok (b, rest) := by
  show ((d input).bind fun r => f r.1 r.2) = _ ↔ _
  cases hd : d input with
  | error fault => simp [Except.bind]
  | ok r =>
    simp only [Except.bind, Except.ok.injEq]
    constructor
    · exact fun h => ⟨r.1, r.2, rfl, h⟩
    · rintro ⟨a, mid, rfl, h⟩
      exact h

/-- The decoder reads the values that satisfy `P`, each from the bytes that are written for it and
from no others, and leaves what follows. -/
structure Inverts (d : Decoder β) (writes : β → List Write) (P : β → Prop) : Prop where
  read : ∀ b, P b → ∃ bytes, Write.run none (writes b) = (bytes, none) ∧
    ∀ rest, d (bytes ++ rest) = .ok (b, rest)
  written : ∀ {input rest b}, d input = .ok (b, rest) → P b ∧
    ∃ bytes, Write.run none (writes b) = (bytes, none) ∧ input = bytes ++ rest

namespace Inverts

variable {d : Decoder β} {writes writes' : β → List Write} {P P' : β → Prop}

theorem congr (h : Inverts d writes P) (hP : ∀ b, P' b ↔ P b) (hw : ∀ b, P b → writes' b = writes b) :
    Inverts d writes' P' where
  read b hb := by
    rw [hw b ((hP b).1 hb)]
    exact h.read b ((hP b).1 hb)
  written hd := by
    obtain ⟨hb, hbytes⟩ := h.written hd
    rw [hw _ hb]
    exact ⟨(hP _).2 hb, hbytes⟩

/-- Nothing is written for a value that is known already. -/
theorem pure (b : β) : Inverts (Pure.pure b) (fun _ => []) (· = b) where
  read _ hb := ⟨[], rfl, fun _ => hb ▸ rfl⟩
  written hd := by
    cases hd
    exact ⟨rfl, [], rfl, rfl⟩

theorem throw (fault : SaveFault) : Inverts (throw fault : Decoder β) writes (fun _ => False) where
  read _ hb := hb.elim
  written hd := by cases hd

/-- Where reading is refused, no value is expected. -/
theorem guard {refused : Prop} [Decidable refused] {fault : SaveFault} {k : Unit → Decoder β}
    (hk : ¬refused → Inverts (k ()) writes P) (hP : ∀ b, P b → ¬refused) :
    Inverts (if refused then MonadExcept.throw fault >>= k else k ()) writes P := by
  by_cases h : refused
  · -- No value is written here either, since `P` excludes them all.
    rw [if_pos h]
    exact ((throw fault).congr (fun b => ⟨fun hb => hP b hb h, False.elim⟩) fun _ _ => rfl :
      Inverts (MonadExcept.throw fault) writes P)
  · rw [if_neg h]
    exact hk h

/-- One part of a value is read first, and then the values that have this part. -/
theorem bind {d : Decoder γ} {f : γ → Decoder β} {first : γ → List Write}
    {Q : γ → Prop} (part : β → γ) (hd : Inverts d first Q) (hQ : ∀ b, P b → Q (part b))
    (hf : ∀ a, Q a → Inverts (f a) writes (fun b => part b = a ∧ P b)) :
    Inverts (d >>= f) (fun b => first (part b) ++ writes b) P where
  read b hb := by
    obtain ⟨bytes, hrun, hread⟩ := hd.read (part b) (hQ b hb)
    obtain ⟨bytes', hrun', hread'⟩ := (hf (part b) (hQ b hb)).read b ⟨rfl, hb⟩
    refine ⟨bytes ++ bytes', Write.run_append hrun hrun', fun rest => ?_⟩
    rw [List.append_assoc]
    exact bind_eq_ok_iff.2 ⟨part b, bytes' ++ rest, hread _, hread' rest⟩
  written hread := by
    obtain ⟨a, mid, hmid, hrest⟩ := bind_eq_ok_iff.1 hread
    obtain ⟨ha, bytes, hrun, rfl⟩ := hd.written hmid
    obtain ⟨⟨rfl, hb⟩, bytes', hrun', rfl⟩ := (hf a ha).written hrest
    exact ⟨hb, bytes ++ bytes', Write.run_append hrun hrun', (List.append_assoc _ _ _).symm⟩

/-- A value is read as another that stands for it. -/
theorem map {d : Decoder γ} {writes : γ → List Write} {Q : γ → Prop} (f : γ → β) (code : β → γ)
    (hd : Inverts d writes Q) (hP : ∀ b, P b → Q (code b) ∧ f (code b) = b)
    (hQ : ∀ a, Q a → P (f a) ∧ code (f a) = a) :
    Inverts (d >>= fun a => Pure.pure (f a)) (fun b => writes (code b)) P := by
  refine (bind (P := P) code hd (fun b hb => (hP b hb).1) fun a ha => ?_).congr (fun _ => Iff.rfl)
    (fun b _ => (List.append_nil _).symm)
  refine (pure (f a)).congr (fun b => ?_) (fun _ _ => rfl)
  constructor
  · rintro ⟨rfl, hb⟩
    exact (hP b hb).2.symm
  · rintro rfl
    exact (hQ a ha).symm

/-- A list is read element by element. -/
theorem times {d : Decoder β} (h : Inverts d writes P) (n : Nat) :
    Inverts (Decoder.times n d) (fun bs => bs.flatMap writes)
      (fun bs => bs.length = n ∧ ∀ b ∈ bs, P b) where
  read bs hbs := by
    obtain ⟨rfl, hbs⟩ := hbs
    induction bs with
    | nil => exact ⟨[], rfl, fun _ => rfl⟩
    | cons b bs ih =>
      obtain ⟨hb, hbs⟩ := List.forall_mem_cons.1 hbs
      obtain ⟨bytes, hrun, hread⟩ := h.read b hb
      obtain ⟨bytes', hrun', hread'⟩ := ih hbs
      refine ⟨bytes ++ bytes', Write.run_append hrun hrun', fun rest => ?_⟩
      rw [List.append_assoc]
      exact bind_eq_ok_iff.2 ⟨b, _, hread _, bind_eq_ok_iff.2 ⟨bs, rest, hread' rest, rfl⟩⟩
  written {input rest bs} hd := by
    induction n generalizing input bs with
    | zero =>
      cases hd
      exact ⟨⟨rfl, by simp⟩, [], rfl, rfl⟩
    | succ n ih =>
      obtain ⟨b, mid, hb, hd⟩ := bind_eq_ok_iff.1 hd
      obtain ⟨bs', end_, hbs, hd⟩ := bind_eq_ok_iff.1 hd
      cases hd
      obtain ⟨hPb, bytes, hrun, rfl⟩ := h.written hb
      obtain ⟨⟨hlength, hPbs⟩, bytes', hrun', rfl⟩ := ih hbs
      refine ⟨⟨by simp [hlength], List.forall_mem_cons.2 ⟨hPb, hPbs⟩⟩, bytes ++ bytes', ?_, ?_⟩
      · exact Write.run_append hrun hrun'
      · exact (List.append_assoc _ _ _).symm

end Inverts

end Decoder

end Masonry.Save
