import Mathlib.Data.List.TakeWhile

/-!
# Cutting a string into fields, in place

The fields of a string are its maximal runs without separators. A tokeniser that hands them out one
at a time keeps a position in a zero-terminated buffer: it skips separators, finds the end of the
next field, and puts a zero over the separator behind it. So the fields come out as strings in the
buffer, and the buffer is no longer what it was: read from its start again, it ends behind its first
field.

## Main definitions

* `Tokens.fields`: the fields of a list
* `Tokens.nextField`: the first of them, and what stands behind its separator
* `Tokens.Cursor`: a buffer with a position, and `Tokens.Cursor.next`, which cuts the next field
* `Tokens.Reads`: what a program computes from the string that it takes tokens of

## Main results

* `nextField_fst`, `fields_nextField`: taking one field at a time gives all of them in order
* `exists_next`: the tokeniser hands out the next field of the string at its position
* `reads_token_bind`: what a program computes that takes tokens
* `exists_restart`: what such a program leaves in the buffer
-/

namespace Tokens

section Fields

variable {α : Type*} (p : α → Bool)

/-- The maximal runs of elements that are no separators. -/
def fields (l : List α) : List (List α) := (l.splitOnP p).filter fun f => !f.isEmpty

/-- The first field, and what stands behind the separator that ends it. -/
def nextField (l : List α) : Option (List α) × List α :=
  match l.dropWhile p with
  | [] => (none, [])
  | a :: s => (some ((a :: s).takeWhile fun b => !p b), ((a :: s).dropWhile fun b => !p b).drop 1)

variable {p}

@[simp] theorem fields_nil : fields p [] = [] := by simp [fields]

theorem fields_cons_of_pos {a : α} (h : p a = true) (l : List α) :
    fields p (a :: l) = fields p l := by
  rw [fields, List.splitOnP_cons_eq_if_modifyHead, if_pos h]
  rfl

theorem fields_append_of_forall {w : List α} (hw : ∀ a ∈ w, p a = true) (l : List α) :
    fields p (w ++ l) = fields p l := by
  induction w with
  | nil => rfl
  | cons a w ih =>
    rw [List.cons_append, fields_cons_of_pos (hw a List.mem_cons_self),
      ih fun b hb => hw b (List.mem_cons_of_mem a hb)]

theorem fields_dropWhile (l : List α) : fields p (l.dropWhile p) = fields p l := by
  calc fields p (l.dropWhile p) = fields p (l.takeWhile p ++ l.dropWhile p) :=
        (fields_append_of_forall (fun _ h => List.mem_takeWhile_imp h) _).symm
    _ = fields p l := by rw [List.takeWhile_append_dropWhile]

/-- A run of other elements in front of a separator is a field. -/
theorem fields_append_cons {f : List α} (hf : ∀ a ∈ f, p a = false) (hne : f ≠ []) {a : α}
    (ha : p a = true) (l : List α) : fields p (f ++ a :: l) = f :: fields p l := by
  rw [fields, List.splitOnP_append_cons_of_forall_mem hf a ha,
    List.filter_cons_of_pos (by simpa using hne), fields]

theorem fields_of_forall {f : List α} (hf : ∀ a ∈ f, p a = false) (hne : f ≠ []) :
    fields p f = [f] := by
  rw [fields, List.splitOnP_eq_singleton hf, List.filter_cons_of_pos (by simpa using hne),
    List.filter_nil]

/-- The first field and those of what stands behind it are all fields. -/
theorem nextField_eq (l : List α) :
    (nextField p l).1 = (fields p l).head? ∧ fields p (nextField p l).2 = (fields p l).tail := by
  rw [← fields_dropWhile l, nextField]
  cases hl : l.dropWhile p with
  | nil => simp
  | cons a s =>
    have ha : p a = false := by
      simpa [hl] using List.head?_dropWhile_not p l
    have hf : ∀ b ∈ (a :: s).takeWhile (fun b => !p b), p b = false := fun b hb => by
      simpa using List.mem_takeWhile_imp hb
    have hne : (a :: s).takeWhile (fun b => !p b) ≠ [] := by simp [ha]
    have happend := List.takeWhile_append_dropWhile (p := fun b => !p b) (l := a :: s)
    cases hd : (a :: s).dropWhile fun b => !p b with
    | nil =>
      rw [hd, List.append_nil] at happend
      have hfields := fields_of_forall hf hne
      rw [happend] at hfields
      simp [hfields, happend, hd]
    | cons d rest =>
      have hsep : p d = true := by
        simpa [hd] using List.head?_dropWhile_not (fun b => !p b) (a :: s)
      rw [hd] at happend
      have hfields := fields_append_cons hf hne hsep rest
      rw [happend] at hfields
      simp [hfields, hd]

/-- **One field at a time.** -/
@[simp] theorem nextField_fst (l : List α) : (nextField p l).1 = (fields p l).head? :=
  (nextField_eq l).1

@[simp] theorem fields_nextField (l : List α) :
    fields p (nextField p l).2 = (fields p l).tail :=
  (nextField_eq l).2

end Fields

/-! ### In a buffer -/

/-- A zero-terminated buffer with a position in it. -/
structure Cursor where
  /-- The bytes before the position. -/
  before : List UInt8
  /-- The bytes from the position on. -/
  rest : List UInt8

namespace Cursor

/-- The whole buffer. -/
def bytes (c : Cursor) : List UInt8 := c.before ++ c.rest

/-- The start of a buffer. -/
def start (buf : List UInt8) : Cursor := ⟨[], buf⟩

/-- A byte inside a field, neither the terminator nor a separator. -/
def inField (p : UInt8 → Bool) (b : UInt8) : Bool := b ≠ 0 && !p b

/-- Cut the next field: skip separators, and put a zero over the separator behind the field. At the
end of the string there is no field. Without a terminator the buffer is left. -/
def next (p : UInt8 → Bool) (c : Cursor) : Option (Option (List UInt8) × Cursor) :=
  let skipped := c.before ++ c.rest.takeWhile p
  match c.rest.dropWhile p with
  | [] => none
  | b :: s =>
    if b = 0 then some (none, ⟨skipped, b :: s⟩)
    else
      let field := (b :: s).takeWhile (inField p)
      match (b :: s).dropWhile (inField p) with
      | [] => none
      | d :: tail =>
        if d = 0 then some (some field, ⟨skipped ++ field, d :: tail⟩)
        else some (some field, ⟨skipped ++ field ++ [0], tail⟩)

/-- The string at the position. -/
def Holds (c : Cursor) (l : List UInt8) : Prop := 0 ∉ l ∧ ∃ tail, c.rest = l ++ 0 :: tail

/-- From one cursor to another, nothing was changed before the position and no terminator was
removed: a string that ends there at the latest is still there. -/
def Kept (c c' : Cursor) : Prop :=
  c'.bytes.length = c.bytes.length ∧
    ∀ s, s.length ≤ c.before.length → s ++ [0] <+: c.bytes →
      s.length ≤ c'.before.length ∧ s ++ [0] <+: c'.bytes

theorem Kept.refl (c : Cursor) : c.Kept c := ⟨rfl, fun _ hlen h => ⟨hlen, h⟩⟩

theorem Kept.trans {a b c : Cursor} (hab : a.Kept b) (hbc : b.Kept c) : a.Kept c :=
  ⟨hbc.1.trans hab.1, fun s hlen h => (hab.2 s hlen h).elim fun hlen' h' => hbc.2 s hlen' h'⟩

/-- Moving the position changes nothing. -/
theorem kept_of_move {c : Cursor} {w rest : List UInt8} (h : c.rest = w ++ rest) :
    c.Kept ⟨c.before ++ w, rest⟩ := by
  have hbytes : (⟨c.before ++ w, rest⟩ : Cursor).bytes = c.bytes := by
    simp [bytes, h]
  refine ⟨by rw [hbytes], fun s hlen hs => ⟨?_, hbytes ▸ hs⟩⟩
  rw [List.length_append]
  omega

/-- Putting a zero over a separator behind a field changes nothing before the field. -/
theorem kept_of_cut {c : Cursor} {w tail : List UInt8} {d : UInt8} (hzero : 0 ∉ w) (hne : w ≠ [])
    (h : c.rest = w ++ d :: tail) : c.Kept ⟨c.before ++ w ++ [0], tail⟩ := by
  refine ⟨by simp [bytes, h], fun s hlen hs => ⟨by simp only [List.length_append]; omega, ?_⟩⟩
  have hbytes : (⟨c.before ++ w ++ [0], tail⟩ : Cursor).bytes = c.before ++ (w ++ 0 :: tail) := by
    simp [bytes]
  rw [bytes, h] at hs
  rw [hbytes]
  rcases Nat.lt_or_eq_of_le hlen with hlt | heq
  · have hbefore : s ++ [0] <+: c.before :=
      List.prefix_of_prefix_length_le hs (List.prefix_append _ _)
        (by simp only [List.length_append, List.length_singleton]; omega)
    exact hbefore.trans (List.prefix_append _ _)
  · -- the byte at the position is part of the field, and no terminator
    have hs' : s = c.before :=
      (List.prefix_of_prefix_length_le ((List.prefix_append s [0]).trans hs)
        (List.prefix_append _ _) hlen).eq_of_length heq
    subst hs'
    rw [List.prefix_append_right_inj] at hs
    obtain ⟨b, w, rfl⟩ := List.exists_cons_of_ne_nil hne
    obtain rfl : 0 = b := by simpa using hs
    exact absurd List.mem_cons_self hzero

/-- A scan that stops at the terminator sees only the string. -/
theorem scan_append_zero {q r : UInt8 → Bool} (hzero : q 0 = false) (tail : List UInt8)
    {s : List UInt8} (h : ∀ b ∈ s, q b = r b) :
    (s ++ 0 :: tail).takeWhile q = s.takeWhile r ∧
      (s ++ 0 :: tail).dropWhile q = s.dropWhile r ++ 0 :: tail := by
  induction s with
  | nil => simp [hzero]
  | cons b s ih =>
    have ih := ih fun b' hb' => h b' (List.mem_cons_of_mem b hb')
    have hb := h b List.mem_cons_self
    cases hr : r b with
    | true => simp [hr, hb, ih]
    | false => simp [hr, hb]

/-- **The tokeniser on a string.** It hands out the next field and goes on behind its separator.
Before that, the buffer now ends behind the field. -/
theorem exists_next {p : UInt8 → Bool} (hp : p 0 = false) {c : Cursor} {l : List UInt8}
    (h : c.Holds l) :
    ∃ c', c.next p = some ((nextField p l).1, c') ∧ c'.Holds (nextField p l).2 ∧ c.Kept c' ∧
      ∃ s, 0 ∉ s ∧ fields p s = (fields p l).head?.toList ∧
        (c.before ++ s).length ≤ c'.before.length ∧ c.before ++ s ++ [0] <+: c'.bytes := by
  obtain ⟨hzero, tail, hrest⟩ := h
  obtain ⟨htake, hdrop⟩ := scan_append_zero hp tail (s := l) fun b _ => rfl
  have hl := List.takeWhile_append_dropWhile (p := p) (l := l)
  have hskip : ∀ b ∈ l.takeWhile p, p b = true := fun _ hb => List.mem_takeWhile_imp hb
  have hmove : c.Kept ⟨c.before ++ l.takeWhile p, l.dropWhile p ++ 0 :: tail⟩ :=
    kept_of_move (by rw [hrest, ← List.append_assoc, hl])
  have hzero' : 0 ∉ l.takeWhile p := fun hmem =>
    hzero ((List.takeWhile_prefix (l := l) p).subset hmem)
  cases hd : l.dropWhile p with
  | nil =>
    rw [hd] at hmove hdrop hl
    have hfield : nextField p l = (none, []) := by rw [nextField, hd]
    have hfields : fields p l = [] := by rw [← fields_dropWhile, hd, fields_nil]
    rw [hfield, hfields]
    refine ⟨_, by simp [next, hrest, htake, hdrop], ⟨by simp, tail, rfl⟩, hmove,
      l.takeWhile p, hzero', ?_, Nat.le_refl _, tail, by simp [bytes]⟩
    simpa using fields_append_of_forall hskip []
  | cons a s =>
    rw [hd] at hl hmove hdrop
    have hs : ∀ b ∈ a :: s, b ≠ 0 := fun b hb hb0 =>
      hzero (by rw [← hl, ← hb0]; exact List.mem_append_right _ hb)
    have ha : a ≠ 0 := hs a List.mem_cons_self
    have hpa : p a = false := by
      simpa [hd] using List.head?_dropWhile_not p l
    obtain ⟨htake', hdrop'⟩ := scan_append_zero (q := inField p) (r := fun b => !p b)
      (by simp [inField]) tail (s := a :: s) fun b hb => by simp [inField, hs b hb]
    rw [List.cons_append] at htake' hdrop' hmove hdrop
    have hfield := List.takeWhile_append_dropWhile (p := fun b => !p b) (l := a :: s)
    have hnext : nextField p l = (some ((a :: s).takeWhile fun b => !p b),
        ((a :: s).dropWhile fun b => !p b).drop 1) := by simp only [nextField, hd]
    generalize hw : (a :: s).takeWhile (fun b => !p b) = w at htake' hfield hnext
    have hne : w ≠ [] := by simp [← hw, hpa]
    have hsep : ∀ b ∈ w, p b = false := fun b hb =>
      (Bool.not_eq_true' _).mp (List.mem_takeWhile_imp (p := fun b => !p b) (hw.symm ▸ hb))
    have hw0 : 0 ∉ w := fun hmem =>
      hs 0 (by rw [← hfield]; exact List.mem_append_left _ hmem) rfl
    -- what ends behind the field
    have hhead : (fields p l).head? = some w := by rw [← nextField_fst, hnext]
    have hcut : fields p (l.takeWhile p ++ w) = (fields p l).head?.toList := by
      rw [fields_append_of_forall hskip, fields_of_forall hsep hne, hhead, Option.toList_some]
    have hcut0 : 0 ∉ l.takeWhile p ++ w := by simp [hzero', hw0]
    cases hd' : (a :: s).dropWhile fun b => !p b with
    | nil =>
      -- the field ends with the string
      rw [hd'] at hfield hdrop' hnext
      rw [hnext]
      have hcursor : c.next p =
          some (some w, ⟨c.before ++ l.takeWhile p ++ w, 0 :: tail⟩) := by
        simp only [next, hrest, htake, hdrop, if_neg ha, htake', hdrop', List.nil_append, if_pos]
      rw [List.append_nil] at hfield
      refine ⟨_, hcursor, ⟨by simp, tail, rfl⟩, hmove.trans (kept_of_move ?_),
        _, hcut0, hcut, by simp, tail, by simp [bytes]⟩
      exact (congrArg (· ++ 0 :: tail) hfield.symm)
    | cons d r =>
      -- the field ends with the separator `d`
      rw [hd'] at hfield hdrop' hnext
      rw [hnext]
      have hd0 : d ≠ 0 := hs d (by rw [← hfield]; simp)
      have hr : 0 ∉ r := fun hmem => hs 0 (by rw [← hfield]; simp [hmem]) rfl
      have hcursor : c.next p =
          some (some w, ⟨c.before ++ l.takeWhile p ++ w ++ [0], r ++ 0 :: tail⟩) := by
        simp only [next, hrest, htake, hdrop, if_neg ha, htake', hdrop', List.cons_append,
          if_neg hd0]
      refine ⟨_, hcursor, ⟨hr, tail, rfl⟩, hmove.trans (kept_of_cut (d := d) hw0 hne ?_),
        _, hcut0, hcut, by simp, r ++ 0 :: tail, by simp [bytes]⟩
      exact (congrArg (· ++ 0 :: tail) hfield.symm).trans (List.append_assoc _ _ _)

end Cursor

/-! ### Programs over the tokeniser -/

open Cursor

variable {α β : Type}

/-- Take the next token. -/
def nextToken (p : UInt8 → Bool) : StateT Cursor Option (Option (List UInt8)) := fun c => c.next p

/-- Wherever a string stands in a buffer, the program computes `spec` of it. -/
def Reads (m : StateT Cursor Option α) (spec : List UInt8 → α) : Prop :=
  ∀ c l, c.Holds l → ∃ c', m c = some (spec l, c') ∧ c.Kept c'

theorem reads_pure (a : α) : Reads (pure a) fun _ => a :=
  fun c _ _ => ⟨c, rfl, Kept.refl c⟩

theorem Reads.congr {m : StateT Cursor Option α} {f g : List UInt8 → α} (h : Reads m f)
    (hfg : ∀ l, f l = g l) : Reads m g :=
  funext hfg ▸ h

theorem Reads.ite {P : Prop} [Decidable P] {m m' : StateT Cursor Option α}
    {f g : List UInt8 → α} (hm : Reads m f) (hm' : Reads m' g) :
    Reads (if P then m else m') fun l => if P then f l else g l := by
  by_cases hP : P
  · simpa only [if_pos hP] using hm
  · simpa only [if_neg hP] using hm'

/-- **Taking a token.** A program that goes on with the next field computes from that field and
the rest of the string. -/
theorem reads_token_bind {p : UInt8 → Bool} (hp : p 0 = false)
    {m : Option (List UInt8) → StateT Cursor Option β} {f : Option (List UInt8) → List UInt8 → β}
    (h : ∀ t, Reads (m t) (f t)) :
    Reads (nextToken p >>= m) fun l => f (nextField p l).1 (nextField p l).2 := by
  intro c l hl
  obtain ⟨c₁, hnext, hl₁, hkept₁, -⟩ := exists_next hp hl
  obtain ⟨c₂, hm, hkept₂⟩ := h (nextField p l).1 c₁ _ hl₁
  refine ⟨c₂, ?_, hkept₁.trans hkept₂⟩
  change (c.next p).bind _ = _
  rw [hnext, Option.bind_some]
  exact hm

/-- Read from its start again, a buffer from which tokens were taken holds the first field. -/
theorem exists_restart {p : UInt8 → Bool} (hp : p 0 = false)
    {m : Option (List UInt8) → StateT Cursor Option β} {f : Option (List UInt8) → List UInt8 → β}
    (h : ∀ t, Reads (m t) (f t)) {buf l : List UInt8} (hl : (start buf).Holds l) :
    ∃ c' s, (nextToken p >>= m) (start buf) = some (f (nextField p l).1 (nextField p l).2, c') ∧
      c'.bytes.length = buf.length ∧ (start c'.bytes).Holds s ∧
      fields p s = (fields p l).head?.toList := by
  obtain ⟨c₁, hnext, hl₁, hkept₁, s, hs0, hfields, hlen, hs⟩ := exists_next hp hl
  obtain ⟨c₂, hm, hkept₂⟩ := h (nextField p l).1 c₁ _ hl₁
  obtain ⟨tail, htail⟩ := (hkept₂.2 s hlen hs).2
  refine ⟨c₂, s, ?_, (hkept₁.trans hkept₂).1, ⟨hs0, tail, ?_⟩, hfields⟩
  · change ((start buf).next p).bind _ = _
    rw [hnext, Option.bind_some]
    exact hm
  · exact htail.symm.trans (by simp)

end Tokens
