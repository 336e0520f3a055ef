import Tendermint.Lib.Wire

/-!
Streams of frames: a checksum and a length of four bytes each, and the data. A
frame with a bad length or a bad checksum is skipped as far as it was read, and
the next frame is looked for there, so whether a damaged stretch is skipped as a
whole depends on the lengths that stand in it.
-/

namespace Tendermint.Framing

open List
open Wire (Bytes putFixed)

/-- Big endian. -/
def putUint32 (value : Nat) : Bytes := (putFixed 4 value).reverse

def uint32 (bytes : Bytes) : Nat := bytes.foldl (fun value byte => 256 * value + byte.toNat) 0

theorem put_uint32_length (value : Nat) : (putUint32 value).length = 4 := by
  simp [putUint32, Wire.put_fixed_length]

theorem uint32_put (value : Nat) (bounded : value < 2 ^ 32) : uint32 (putUint32 value) = value := by
  simp only [putUint32, putFixed, uint32, reverse_cons, reverse_nil, nil_append,
    cons_append, foldl_cons, foldl_nil, UInt8.toNat_ofNat']
  omega

def lengthOf (header : Bytes) : Nat := uint32 (header.drop 4)

/-- What the next look at a stream finds. -/
inductive Step (α : Type) where
  | finished
  | skipped (rest : Bytes)
  | item (value : α) (rest : Bytes)

section Next

variable {α : Type} (limit : Nat) (accept : Nat → Bytes → Option α)

/-- A frame without data is skipped like one that is too long. -/
def next (input : Bytes) : Step α :=
  if input.length < 4 then .finished
  else if input.length < 8 then .skipped []
  else
    let length := lengthOf (input.take 8)
    if limit < length ∨ length = 0 then .skipped (input.drop 8)
    else if input.length < 8 + length then .skipped []
    else match accept (uint32 (input.take 4)) ((input.drop 8).take length) with
      | none => .skipped (input.drop (8 + length))
      | some value => .item value (input.drop (8 + length))

/-- From one place of the stream to a later one, over no value of a kind. -/
inductive Leads (kind : α → Prop) : Bytes → Bytes → Prop
  | refl (input : Bytes) : Leads kind input input
  | skip {input rest last : Bytes} (skipped : next limit accept input = .skipped rest)
      (later : Leads kind rest last) : Leads kind input last
  | pass {input rest last : Bytes} {value : α} (item : next limit accept input = .item value rest)
      (other : ¬ kind value) (later : Leads kind rest last) : Leads kind input last

/-- Read by itself the stretch gives no value of a kind. -/
def Silent (kind : α → Prop) (stretch : Bytes) : Prop :=
  ∀ place value rest, Leads limit accept kind stretch place →
    next limit accept place = .item value rest → ¬ kind value

variable {limit accept} {kind : α → Prop}

def Goes (limit : Nat) (accept : Nat → Bytes → Option α) (input rest : Bytes) : Prop :=
  next limit accept input = .skipped rest ∨ ∃ value, next limit accept input = .item value rest

variable (limit accept) in
theorem next_cases (input : Bytes) :
    next limit accept input = .finished ∧ input.length < 4 ∨
    4 ≤ input.length ∧ ∃ rest, Goes limit accept input rest ∧ (rest = [] ∨
      8 ≤ input.length ∧ (limit < lengthOf (input.take 8) ∨ lengthOf (input.take 8) = 0) ∧
        rest = input.drop 8 ∨
      8 ≤ input.length ∧ ¬ (limit < lengthOf (input.take 8) ∨ lengthOf (input.take 8) = 0) ∧
        rest = input.drop (8 + lengthOf (input.take 8))) := by
  unfold Goes next
  split
  · exact Or.inl ⟨rfl, by assumption⟩
  right
  refine ⟨by omega, ?_⟩
  split
  · exact ⟨[], Or.inl rfl, Or.inl rfl⟩
  dsimp only
  split
  · exact ⟨_, Or.inl rfl, Or.inr (Or.inl ⟨by omega, by assumption, rfl⟩)⟩
  split
  · exact ⟨[], Or.inl rfl, Or.inl rfl⟩
  refine ⟨_, ?_, Or.inr (Or.inr ⟨by omega, by assumption, rfl⟩)⟩
  split
  · exact Or.inl rfl
  · exact Or.inr ⟨_, rfl⟩

variable {input rest : Bytes}

theorem Goes.unique {other : Bytes} (goes : Goes limit accept input rest)
    (goesToo : Goes limit accept input other) : rest = other := by
  rcases goes with skipped | ⟨value, item⟩ <;> rcases goesToo with skippedToo | ⟨valueToo, itemToo⟩
  · rw [skipped] at skippedToo
    exact Step.skipped.inj skippedToo
  · rw [skipped] at itemToo
    cases itemToo
  · rw [item] at skippedToo
    cases skippedToo
  · rw [item] at itemToo
    exact (Step.item.inj itemToo).2

theorem next_shrinks (goes : Goes limit accept input rest) :
    rest.length < input.length := by
  rcases next_cases limit accept input with
    ⟨finished, _⟩ | ⟨long, other, goesToo, place⟩
  · rcases goes with skipped | ⟨value, item⟩
    · rw [finished] at skipped
      cases skipped
    · rw [finished] at item
      cases item
  · rw [goes.unique goesToo]
    rcases place with rfl | ⟨_, _, rfl⟩ | ⟨_, _, rfl⟩
    · simpa using by omega
    · rw [length_drop]
      omega
    · rw [length_drop]
      omega

theorem Goes.suffix (goes : Goes limit accept input rest) :
    rest <:+ input := by
  rcases next_cases limit accept input with ⟨finished, _⟩ | ⟨_, other, goesToo, place⟩
  · rcases goes with skipped | ⟨value, item⟩
    · rw [finished] at skipped
      cases skipped
    · rw [finished] at item
      cases item
  · rw [goes.unique goesToo]
    rcases place with rfl | ⟨_, _, rfl⟩ | ⟨_, _, rfl⟩
    · exact nil_suffix
    · exact drop_suffix _ input
    · exact drop_suffix _ input

theorem Leads.suffix {place : Bytes} (leads : Leads limit accept kind input place) :
    place <:+ input := by
  induction leads with
  | refl input => exact suffix_refl input
  | skip skipped _ ih => exact ih.trans (Goes.suffix (Or.inl skipped))
  | pass item _ _ ih => exact ih.trans (Goes.suffix (Or.inr ⟨_, item⟩))

theorem next_item {value : α} (item : next limit accept input = .item value rest) :
    ∃ checksum length, 8 + length ≤ input.length ∧
      accept checksum ((input.drop 8).take length) = some value := by
  unfold next at item
  split at item
  · cases item
  split at item
  · cases item
  dsimp only at item
  split at item
  · cases item
  split at item
  · cases item
  split at item
  · cases item
  · rename_i found accepted
    cases item
    exact ⟨_, _, by omega, accepted⟩

theorem Silent.finishes {stretch : Bytes} (silent : Silent limit accept kind stretch) :
    ∃ place, Leads limit accept kind stretch place ∧ next limit accept place = .finished := by
  induction bound : stretch.length using Nat.strongRecOn generalizing stretch with
  | _ size ih =>
    cases here : next limit accept stretch with
    | finished => exact ⟨stretch, .refl stretch, here⟩
    | skipped rest =>
      have shorter := next_shrinks (Or.inl here)
      have restSilent : Silent limit accept kind rest := fun place value after leads =>
        silent place value after (.skip here leads)
      obtain ⟨place, leads, finished⟩ := ih rest.length (bound ▸ shorter) restSilent rfl
      exact ⟨place, .skip here leads, finished⟩
    | item value rest =>
      have shorter := next_shrinks (Or.inr ⟨value, here⟩)
      have other := silent stretch value rest (.refl stretch) here
      have restSilent : Silent limit accept kind rest := fun place found after leads =>
        silent place found after (.pass here other leads)
      obtain ⟨place, leads, finished⟩ := ih rest.length (bound ▸ shorter) restSilent rfl
      exact ⟨place, .pass here other leads, finished⟩

theorem next_bare {header : Bytes} (rest : Bytes) (sized : header.length = 8)
    (void : limit < lengthOf header ∨ lengthOf header = 0) :
    next limit accept (header ++ rest) = .skipped rest := by
  unfold next
  rw [if_neg (by simp; omega), if_neg (by simp; omega), ← sized, take_left, drop_left]
  exact if_pos void

theorem next_full {header data : Bytes} (rest : Bytes) (sized : header.length = 8)
    (length : lengthOf header = data.length) (present : data ≠ [])
    (bounded : data.length ≤ limit) :
    next limit accept (header ++ (data ++ rest)) =
      match accept (uint32 (header.take 4)) data with
      | none => .skipped rest
      | some value => .item value rest := by
  have positive := length_pos_of_ne_nil present
  have checksum : (header ++ (data ++ rest)).take 4 = header.take 4 := by
    rw [take_append_of_le_length (by omega)]
  have start : (header ++ (data ++ rest)).take 8 = header := by
    rw [← sized, take_left]
  have body : ((header ++ (data ++ rest)).drop 8).take data.length = data := by
    rw [← sized, drop_left, take_left]
  have after : (header ++ (data ++ rest)).drop (8 + data.length) = rest := by
    rw [← sized, ← drop_drop, drop_left, drop_left]
  unfold next
  rw [if_neg (by simp; omega), if_neg (by simp; omega)]
  dsimp only
  rw [start, length, if_neg (by omega), if_neg (by simp; omega), checksum, body, after]

end Next

/-- The lengths in the stretch cut it into frames. -/
inductive Framed (limit : Nat) : Bytes → Prop
  | nil : Framed limit []
  | bare {header rest : Bytes} (sized : header.length = 8)
      (void : limit < lengthOf header ∨ lengthOf header = 0) (later : Framed limit rest) :
      Framed limit (header ++ rest)
  | full {header data rest : Bytes} (sized : header.length = 8)
      (length : lengthOf header = data.length) (present : data ≠ [])
      (bounded : data.length ≤ limit) (later : Framed limit rest) :
      Framed limit (header ++ (data ++ rest))

section Cut

variable {α : Type} {limit : Nat} {accept : Nat → Bytes → Option α} {kind : α → Prop}

/-- A silent stretch that is cut into frames is skipped as a whole, whatever follows. -/
theorem Framed.leads {stretch : Bytes} (framed : Framed limit stretch)
    (silent : Silent limit accept kind stretch) (rest : Bytes) :
    Leads limit accept kind (stretch ++ rest) rest := by
  induction framed with
  | nil => exact .refl rest
  | bare sized void later ih =>
    rename_i header after
    have inside : next limit accept (header ++ after) = .skipped after :=
      next_bare after sized void
    rw [append_assoc]
    refine .skip (next_bare (after ++ rest) sized void) (ih ?_)
    exact fun place value tail leads => silent place value tail (.skip inside leads)
  | full sized length present bounded later ih =>
    rename_i header data after
    have inside : next limit accept (header ++ (data ++ after)) = _ :=
      next_full after sized length present bounded
    have outside : next limit accept (header ++ (data ++ (after ++ rest))) = _ :=
      next_full (after ++ rest) sized length present bounded
    rw [append_assoc, append_assoc]
    cases accepted : accept (uint32 (header.take 4)) data with
    | none =>
      rw [accepted] at inside outside
      refine .skip outside (ih ?_)
      exact fun place value tail leads => silent place value tail (.skip inside leads)
    | some value =>
      rw [accepted] at inside outside
      have other := silent _ value after (.refl _) inside
      refine .pass outside other (ih ?_)
      exact fun place found tail leads => silent place found tail (.pass inside other leads)

/-- From a stretch that is not cut into frames the next look stays in one that is
not, or goes beyond its end. -/
theorem next_unframed (accept : Nat → Bytes → Option α) {stretch : Bytes}
    (unframed : ¬ Framed limit stretch) (rest : Bytes) (follows : rest ≠ []) :
    (∃ later, ¬ Framed limit later ∧ later <:+ stretch ∧ later.length < stretch.length ∧
      Goes limit accept (stretch ++ rest) (later ++ rest)) ∨
    next limit accept (stretch ++ rest) = .finished ∨
    ∃ beyond, beyond.length < rest.length ∧ Goes limit accept (stretch ++ rest) beyond := by
  have restPositive := length_pos_of_ne_nil follows
  have nonempty : stretch ≠ [] := by
    rintro rfl
    exact unframed .nil
  have positive := length_pos_of_ne_nil nonempty
  rcases next_cases limit accept (stretch ++ rest) with
    ⟨finished, _⟩ | ⟨_, after, goes, place⟩
  · exact Or.inr (Or.inl finished)
  by_cases inside : 8 ≤ stretch.length
  case neg =>
    refine Or.inr (Or.inr ⟨after, ?_, goes⟩)
    rcases place with rfl | ⟨_, _, rfl⟩ | ⟨_, _, rfl⟩
    · simpa using restPositive
    · simp
      omega
    · simp
      omega
  have sized : (stretch.take 8).length = 8 := by simpa using inside
  have split : stretch = stretch.take 8 ++ stretch.drop 8 := (take_append_drop 8 stretch).symm
  have header : (stretch ++ rest).take 8 = stretch.take 8 := take_append_of_le_length inside
  rw [header] at place
  rcases place with rfl | ⟨_, void, rfl⟩ | ⟨_, data, rfl⟩
  · exact Or.inr (Or.inr ⟨[], by simpa using restPositive, goes⟩)
  · left
    rw [drop_append_of_le_length inside] at goes
    refine ⟨stretch.drop 8, ?_, drop_suffix 8 stretch, by simp; omega, goes⟩
    intro framed
    rw [split] at unframed
    exact unframed (.bare sized void framed)
  · by_cases whole : 8 + lengthOf (stretch.take 8) ≤ stretch.length
    · left
      rw [drop_append_of_le_length whole] at goes
      refine ⟨stretch.drop (8 + lengthOf (stretch.take 8)), ?_, drop_suffix _ stretch,
        by simp; omega, goes⟩
      intro framed
      have length : ((stretch.drop 8).take (lengthOf (stretch.take 8))).length =
          lengthOf (stretch.take 8) := by simp; omega
      have parts : stretch.drop 8 = (stretch.drop 8).take (lengthOf (stretch.take 8)) ++
          stretch.drop (8 + lengthOf (stretch.take 8)) := by
        rw [← drop_drop, take_append_drop]
      rw [split, parts] at unframed
      exact unframed (.full sized length.symm (by rw [← length_pos_iff]; omega) (by omega) framed)
    · refine Or.inr (Or.inr ⟨_, ?_, goes⟩)
      simp
      omega

end Cut

end Tendermint.Framing
