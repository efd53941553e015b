import Mathlib.Data.List.Infix

/-!
# Messages on a stream of symbols

A reader takes the symbols of a stream one at a time, and some of them complete a message. What it
has completed after a piece of the stream depends on the symbols only, not on how they were cut
into pieces, and a longer piece only adds messages. So an encoding that the reader takes back, one
message at a time and without a rest, carries sequences of messages: the encodings may be put one
behind the other and cut anywhere.

## Main definitions

* `Framing.feed`: the reader on a piece of the stream, with the messages it completes
* `Framing.Delimits`: an encoding whose messages the reader takes back one at a time

## Main results

* `feed_append`: a stream may be cut anywhere
* `outputs_prefix`: a longer piece only adds messages
* `Delimits.feed_flatMap`: a sequence of messages is taken back
-/

namespace Framing

variable {σ α β : Type*} {step : σ → α → σ × List β}

/-- Read a piece of the stream: the state after it, and the messages that it completes. -/
def feed (step : σ → α → σ × List β) : σ → List α → σ × List β
  | s, [] => (s, [])
  | s, a :: as => ((feed step (step s a).1 as).1, (step s a).2 ++ (feed step (step s a).1 as).2)

@[simp] theorem feed_nil (s : σ) : feed step s [] = (s, []) := rfl

theorem feed_cons (s : σ) (a : α) (as : List α) :
    feed step s (a :: as) =
      ((feed step (step s a).1 as).1, (step s a).2 ++ (feed step (step s a).1 as).2) := rfl

@[simp] theorem feed_singleton (s : σ) (a : α) : feed step s [a] = step s a := by
  simp [feed_cons]

/-- **A stream may be cut anywhere.** -/
theorem feed_append (s : σ) (as bs : List α) :
    feed step s (as ++ bs) =
      ((feed step (feed step s as).1 bs).1,
        (feed step s as).2 ++ (feed step (feed step s as).1 bs).2) := by
  induction as generalizing s with
  | nil => simp
  | cons a as ih => simp [feed_cons, ih]

variable (step) in
/-- What has been completed stays completed. -/
theorem outputs_prefix {as bs : List α} (h : as <+: bs) (s : σ) :
    (feed step s as).2 <+: (feed step s bs).2 := by
  obtain ⟨cs, rfl⟩ := h
  rw [feed_append]
  exact List.prefix_append _ _

/-- A state that no symbol changes and in which none completes a message is the last one. -/
theorem feed_of_absorbing {s : σ} (h : ∀ a, step s a = (s, [])) (as : List α) :
    feed step s as = (s, []) := by
  induction as with
  | nil => rfl
  | cons a as ih => simp [feed_cons, h, ih]

/-! ### Encodings -/

/-- The reader takes the message `b` back from its encoding and is where it started. -/
def Delimits (step : σ → α → σ × List β) (s : σ) (encode : β → List α) (b : β) : Prop :=
  feed step s (encode b) = (s, [b])

variable {s : σ} {encode : β → List α}

/-- **A sequence of messages is read back** from their encodings, one behind the other. -/
theorem Delimits.feed_flatMap {bs : List β} (h : ∀ b ∈ bs, Delimits step s encode b) :
    feed step s (bs.flatMap encode) = (s, bs) := by
  induction bs with
  | nil => rfl
  | cons b bs ih =>
    have hb : feed step s (encode b) = (s, [b]) := h b List.mem_cons_self
    rw [List.flatMap_cons, feed_append, hb, ih fun c hc => h c (List.mem_cons_of_mem b hc)]
    rfl

end Framing
