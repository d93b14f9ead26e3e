import Mathlib.Data.List.Infix

/-!
# Streams of words none of which begins another

A reader that can tell from what it has read where a word ends reads the words of a stream
one after another. If no word is the start of another one, what it reads does not depend on
anything but the stream: the words read so far are the first words of the stream, and where
no word is left they are all of them.
-/

namespace PrefixCode

variable {α : Type*} {Word : List α → Prop}

/-- No word is the start of another one. -/
def PrefixFree (Word : List α → Prop) : Prop := ∀ u v, Word u → Word v → u <+: v → u = v

/-- No word stands at the front. -/
def Ended (Word : List α → Prop) (xs : List α) : Prop := ∀ u, Word u → ¬u <+: xs

variable {u v xs ys tail more : List α} {us vs : List (List α)}

/-- The word at the front of a stream is the only one. -/
theorem PrefixFree.append_inj (free : PrefixFree Word) (hu : Word u) (hv : Word v)
    (same : u ++ xs = v ++ ys) : u = v ∧ xs = ys := by
  have hfront : v <+: u ++ xs := same ▸ List.prefix_append v ys
  have heq : u = v := by
    rcases List.prefix_or_prefix_of_prefix (List.prefix_append u xs) hfront with h | h
    · exact free u v hu hv h
    · exact (free v u hv hu h).symm
  subst heq
  exact ⟨rfl, List.append_cancel_left same⟩

/-- A stream of words that begins with a word has it as the first one. -/
theorem PrefixFree.words_cons (free : PrefixFree Word) (all : ∀ u ∈ us, Word u)
    (ended : Ended Word tail) (hv : Word v) (same : us.flatten ++ tail = v ++ more) :
    ∃ others, us = v :: others ∧ others.flatten ++ tail = more := by
  cases us with
  | nil =>
    rw [List.flatten_nil, List.nil_append] at same
    exact absurd (same ▸ List.prefix_append v more) (ended v hv)
  | cons u us =>
    rw [List.flatten_cons, List.append_assoc] at same
    obtain ⟨rfl, hrest⟩ := free.append_inj (all u List.mem_cons_self) hv same
    exact ⟨us, rfl, hrest⟩

/-- A stream at whose front no word stands has none. -/
theorem words_nil (all : ∀ u ∈ us, Word u) (ended : Ended Word (us.flatten ++ tail)) :
    us = [] := by
  cases us with
  | nil => rfl
  | cons u us =>
    refine absurd ?_ (ended u (all u List.mem_cons_self))
    rw [List.flatten_cons, List.append_assoc]
    exact List.prefix_append u _

/-- Words that have been read from a stream are its first ones. -/
theorem PrefixFree.words_begin (free : PrefixFree Word) (all : ∀ u ∈ us, Word u)
    (read : ∀ v ∈ vs, Word v) (ended : Ended Word tail)
    (same : us.flatten ++ tail = vs.flatten ++ more) : vs <+: us := by
  induction vs generalizing us with
  | nil => exact List.nil_prefix
  | cons v vs ih =>
    rw [List.flatten_cons, List.append_assoc] at same
    obtain ⟨us, rfl, hrest⟩ := free.words_cons all ended (read v List.mem_cons_self) same
    have hbegin := ih (fun u hu => all u (List.mem_cons_of_mem _ hu))
      (fun v hv => read v (List.mem_cons_of_mem _ hv)) hrest
    exact (List.prefix_cons_inj v).mpr hbegin

/-- Where no word is left, they are all of them. -/
theorem PrefixFree.words_eq (free : PrefixFree Word) (all : ∀ u ∈ us, Word u)
    (read : ∀ v ∈ vs, Word v) (ended : Ended Word tail) (behind : Ended Word more)
    (same : us.flatten ++ tail = vs.flatten ++ more) : vs = us := by
  have hbegin := free.words_begin all read ended same
  have hback := free.words_begin read all behind same.symm
  exact hbegin.eq_of_length_le hback.length_le

end PrefixCode
