import Mathlib.Data.List.Basic
import Mathlib.Tactic.Common

/-! # Words over bytes

A string of bytes read as words of four bytes, least significant byte first. A
string whose length is no multiple of four ends in fewer than four bytes that
belong to no word.
-/

namespace Words

abbrev Byte := BitVec 8

abbrev Word := BitVec 32

/-- The word of four bytes. -/
def word (first second third fourth : Byte) : Word := fourth ++ third ++ second ++ first

def bytes (word : Word) : List Byte :=
  [word.extractLsb' 0 8, word.extractLsb' 8 8, word.extractLsb' 16 8, word.extractLsb' 24 8]

/-- The words from the front of a string. -/
def words : List Byte → List Word
  | first :: second :: third :: fourth :: rest => word first second third fourth :: words rest
  | _ => []

/-- The words put over the front of a string. -/
def store (string : List Byte) (list : List Word) : List Byte :=
  list.flatMap bytes ++ string.drop (4 * list.length)

/-- The bytes of the words. -/
def front (string : List Byte) : List Byte := string.take (4 * (string.length / 4))

/-- The bytes that belong to no word. -/
def rest (string : List Byte) : List Byte := string.drop (4 * (string.length / 4))

@[simp] theorem bytes_word (first second third fourth : Byte) :
    bytes (word first second third fourth) = [first, second, third, fourth] := by
  unfold bytes word
  simp only [List.cons.injEq, and_true]
  refine ⟨?_, ?_, ?_, ?_⟩
  all_goals
    apply BitVec.eq_of_getLsbD_eq
    intro position inside
    simp only [BitVec.getLsbD_extractLsb', BitVec.getLsbD_append]
    grind

/-- A string in which no word begins. -/
theorem lt_four {string : List Byte} (short : ∀ first second third fourth rest,
    string = first :: second :: third :: fourth :: rest → False) : string.length < 4 := by
  match string, short with
  | [], _ | [_], _ | [_, _], _ | [_, _, _], _ =>
      simp only [List.length_cons, List.length_nil]
      omega
  | first :: second :: third :: fourth :: rest, short =>
      exact (short first second third fourth rest rfl).elim

private theorem length_words (string : List Byte) : (words string).length = string.length / 4 := by
  induction string using words.induct with
  | case1 first second third fourth rest ih =>
      rw [words, List.length_cons, ih]
      simp only [List.length_cons]
      omega
  | case2 string short =>
      rw [words.eq_2 string short, Nat.div_eq_of_lt (lt_four short)]
      rfl

/-- A string is its words and the rest. -/
theorem bytes_words_append_rest (string : List Byte) :
    (words string).flatMap bytes ++ rest string = string := by
  induction string using words.induct with
  | case1 first second third fourth later ih =>
      have more : (first :: second :: third :: fourth :: later).length / 4 =
          later.length / 4 + 1 := by
        simp only [List.length_cons]
        omega
      have same : rest (first :: second :: third :: fourth :: later) = rest later := by
        rw [rest, rest, more]
        rfl
      rw [words, List.flatMap_cons, bytes_word, same, List.append_assoc, ih]
      rfl
  | case2 string short =>
      rw [words.eq_2 string short, rest, Nat.div_eq_of_lt (lt_four short)]
      rfl

theorem front_append_rest (string : List Byte) : front string ++ rest string = string :=
  List.take_append_drop _ string

private theorem flatMap_words (string : List Byte) : (words string).flatMap bytes = front string :=
  List.append_cancel_right ((bytes_words_append_rest string).trans (front_append_rest string).symm)

private theorem store_words_map (string : List Byte) (f : Word → Word) :
    store string ((words string).map f) =
      (words string).flatMap (fun word => bytes (f word)) ++ rest string := by
  rw [store, List.flatMap_map, List.length_map, length_words, rest]

/-- Putting its own words over a string changes nothing. -/
theorem store_words (string : List Byte) : store string (words string) = string := by
  rw [store, length_words]
  exact bytes_words_append_rest string

private theorem length_flatMap_bytes (list : List Word) :
    (list.flatMap bytes).length = 4 * list.length := by
  induction list with
  | nil => rfl
  | cons word rest ih =>
      rw [List.flatMap_cons, List.length_append, ih, List.length_cons]
      simp only [bytes, List.length_cons, List.length_nil]
      omega

private theorem word_bytes (value : Word) : words (bytes value) = [value] := by
  simp only [words, bytes, List.cons.injEq, and_true]
  unfold word
  apply BitVec.eq_of_getLsbD_eq
  intro position inside
  simp only [BitVec.getLsbD_extractLsb', BitVec.getLsbD_append]
  grind

/-- Words that are put down are read again, before fewer than four other bytes. -/
theorem words_append (list : List Word) {short : List Byte} (few : short.length < 4) :
    words (list.flatMap bytes ++ short) = list := by
  induction list with
  | nil =>
      match short, few with
      | [], _ | [_], _ | [_, _], _ | [_, _, _], _ => rfl
  | cons value later ih =>
      have own := word_bytes value
      rw [List.flatMap_cons, bytes, List.append_assoc]
      change words (_ :: _ :: _ :: _ :: (later.flatMap bytes ++ short)) = _
      rw [words, ih]
      exact congrArg₂ List.cons (List.cons.inj own).1 rfl

theorem length_rest_lt (string : List Byte) : (rest string).length < 4 := by
  rw [rest, List.length_drop]
  omega

theorem rest_eq_nil_iff {string : List Byte} : rest string = [] ↔ 4 ∣ string.length := by
  rw [rest, List.drop_eq_nil_iff]
  omega

/-- Putting changed words over a string changes just its words. -/
theorem words_store_map (string : List Byte) (f : Word → Word) :
    words (store string ((words string).map f)) = (words string).map f := by
  rw [store_words_map, ← List.flatMap_map]
  exact words_append _ (length_rest_lt string)

private theorem length_store_map (string : List Byte) (f : Word → Word) :
    (store string ((words string).map f)).length = string.length := by
  have whole := congrArg List.length (bytes_words_append_rest string)
  rw [List.length_append, length_flatMap_bytes] at whole
  rw [store_words_map, ← List.flatMap_map, List.length_append, length_flatMap_bytes,
    List.length_map]
  exact whole

private theorem rest_store_map (string : List Byte) (f : Word → Word) :
    rest (store string ((words string).map f)) = rest string := by
  rw [rest, length_store_map, store_words_map, ← List.flatMap_map]
  have first : ((words string |>.map f).flatMap bytes).length = 4 * (string.length / 4) := by
    rw [length_flatMap_bytes, List.length_map, length_words]
  exact List.drop_left' first

theorem store_store_map (string : List Byte) (f g : Word → Word) :
    store (store string ((words string).map f))
        ((words (store string ((words string).map f))).map g) =
      store string ((words string).map (g ∘ f)) := by
  rw [store_words_map, words_store_map, rest_store_map, store_words_map, List.flatMap_map]
  rfl

/-- The bytes of the complement are the complements of the bytes. -/
theorem bytes_not (value : Word) : bytes (~~~value) = (bytes value).map (~~~·) := by
  unfold bytes
  simp only [List.map_cons, List.map_nil, List.cons.injEq, and_true]
  refine ⟨?_, ?_, ?_, ?_⟩
  all_goals
    apply BitVec.eq_of_getLsbD_eq
    intro position inside
    simp only [BitVec.getLsbD_extractLsb', BitVec.getLsbD_not]
    grind

/-- A word is zero when its bytes are. -/
theorem eq_zero_iff (value : Word) : value = 0 ↔ ∀ byte ∈ bytes value, byte = 0 := by
  constructor
  · rintro rfl byte inside
    revert byte
    decide
  · intro all
    have zeros : bytes value = [0, 0, 0, 0] := by
      unfold bytes at all ⊢
      simp only [List.mem_cons, List.not_mem_nil, or_false, forall_eq_or_imp, forall_eq] at all
      obtain ⟨first, second, third, fourth⟩ := all
      rw [first, second, third, fourth]
    have own := word_bytes value
    rw [zeros] at own
    exact (List.cons.inj own).1.symm

theorem store_not (string : List Byte) :
    store string ((words string).map (~~~·)) = (front string).map (~~~·) ++ rest string := by
  rw [store_words_map, ← flatMap_words, List.map_flatMap]
  simp only [bytes_not]

theorem store_zero (string : List Byte) :
    store string ((words string).map fun _ => 0) =
      List.replicate (front string).length 0 ++ rest string := by
  rw [store_words_map, ← flatMap_words, length_flatMap_bytes]
  congr 1
  induction words string with
  | nil => rfl
  | cons word later ih =>
      rw [List.flatMap_cons, ih, List.length_cons, Nat.mul_succ, Nat.add_comm,
        List.replicate_add]
      rfl

theorem words_all_zero_iff (string : List Byte) :
    (∀ word ∈ words string, word = 0) ↔ ∀ byte ∈ front string, byte = 0 := by
  rw [← flatMap_words]
  simp only [List.mem_flatMap, forall_exists_index, and_imp, eq_zero_iff]
  exact ⟨fun all byte word inside => all word inside byte,
    fun all word inside byte => all byte word inside⟩

end Words
