import OsLabs.Stdio.Scanf

/-!
# Lines of tokens

A line of tokens with a blank between every two of them, read by a format with a blank between
every two conversions.
-/

namespace OsLabs.Stdio

def blank : UInt8 := ' '.toUInt8

def lineEnd : UInt8 := '\n'.toUInt8

/-- `"%.. %.. %.."` -/
def format (vs : List Conv) : List Directive := (vs.map .conv).intersperse .space

def tokenLine (ts : List (List UInt8)) : List UInt8 := [blank].intercalate ts ++ [lineEnd]

theorem intersperse_cons_eq {α : Type} (s a : α) (l : List α) :
    (a :: l).intersperse s = a :: l.flatMap fun b => [s, b] := by
  induction l generalizing a with
  | nil => rfl
  | cons b l ih => rw [List.intersperse_cons_cons, ih, List.flatMap_cons]; rfl

theorem format_cons (v : Conv) (vs : List Conv) :
    format (v :: vs) = .conv v :: vs.flatMap fun v => [.space, .conv v] := by
  rw [format, List.map_cons, intersperse_cons_eq, List.flatMap_map]

theorem tokenLine_cons (t : List UInt8) (ts : List (List UInt8)) :
    tokenLine (t :: ts) = t ++ (ts.flatMap (fun t => blank :: t) ++ [lineEnd]) := by
  have hTail : (ts.flatMap fun t => [[blank], t]).flatten = ts.flatMap fun t => blank :: t := by
    induction ts with
    | nil => rfl
    | cons t ts ih => rw [List.flatMap_cons, List.flatten_append, ih, List.flatMap_cons]; simp
  rw [tokenLine, List.intercalate, intersperse_cons_eq, List.flatten_cons, hTail,
    List.append_assoc]

/-- Nothing is read at the end of the text. -/
theorem convert_nil (v : Conv) : convert [] v = none := by
  cases v with
  | s width => simp [convert, skipSpace]
  | _ => rfl

theorem skipSpace_blank (text : List UInt8) : skipSpace (blank :: text) = skipSpace text :=
  List.dropWhile_cons_of_pos rfl

/-- The token is what the conversion reads if white space follows. -/
structure Reads (v : Conv) (t : List UInt8) (value : Value) : Prop where
  skipSpace (rest : List UInt8) : skipSpace (t ++ rest) = t ++ rest
  convert {rest : List UInt8} (h : ∀ b ∈ rest.head?, isSpace b = true) :
    convert (t ++ rest) v = some (value, rest)

theorem isSpace_head_tokens (ts : List (List UInt8)) :
    ∀ b ∈ (ts.flatMap (fun t => blank :: t) ++ [lineEnd]).head?, isSpace b = true := by
  intro b hb
  cases ts with
  | nil => rw [← Option.mem_some.mp hb]; rfl
  | cons t ts => rw [← Option.mem_some.mp hb]; rfl

section Line

variable {α : Type} (conv : α → Conv) (text : α → List UInt8) (value : α → Value)

/-- The conversions that are left over at the end of the line read nothing. -/
theorem scan_blank_tokens {es : List α} (h : ∀ e ∈ es, Reads (conv e) (text e) (value e))
    (extra : List Conv) :
    scan ((es.map conv ++ extra).flatMap fun v => [.space, .conv v])
        ((es.map text).flatMap (fun t => blank :: t) ++ [lineEnd]) = es.map value := by
  induction es with
  | nil =>
    cases extra with
    | nil => rfl
    | cons v extra =>
      have hEnd : skipSpace [lineEnd] = [] := rfl
      simp only [List.map_nil, List.nil_append, List.flatMap_nil, List.flatMap_cons,
        List.cons_append, scan, hEnd, convert_nil]
  | cons e es ih =>
    have hFirst := h e List.mem_cons_self
    have hRest := ih fun e' he' => h e' (List.mem_cons_of_mem e he')
    simp only [List.map_cons, List.cons_append, List.flatMap_cons, List.append_assoc,
      List.nil_append, scan, skipSpace_blank, hFirst.skipSpace,
      hFirst.convert (isSpace_head_tokens _), hRest]

theorem scan_tokens {es : List α} (hne : es ≠ [])
    (h : ∀ e ∈ es, Reads (conv e) (text e) (value e)) (extra : List Conv) :
    scan (format (es.map conv ++ extra)) (tokenLine (es.map text)) = es.map value := by
  cases es with
  | nil => exact absurd rfl hne
  | cons e es =>
    have hFirst := h e List.mem_cons_self
    have hRest := scan_blank_tokens conv text value
      (fun e' he' => h e' (List.mem_cons_of_mem e he')) extra
    simp only [List.map_cons, List.cons_append, format_cons, tokenLine_cons, scan,
      hFirst.convert (isSpace_head_tokens _), hRest]

end Line

/-- A word that is not too long. -/
theorem reads_word {t : List UInt8} {width : Nat} (hne : t ≠ [])
    (hWord : ∀ b ∈ t, isSpace b = false) (hWidth : t.length ≤ width) :
    Reads (.s width) t (.text t) := by
  have hSkip (rest : List UInt8) : skipSpace (t ++ rest) = t ++ rest := by
    cases t with
    | nil => exact absurd rfl hne
    | cons b t => exact skipSpace_cons (hWord b List.mem_cons_self)
  refine ⟨hSkip, ?_⟩
  intro rest hRest
  have hTake : (t ++ rest).takeWhile (fun c => !isSpace c) = t := by
    rw [List.takeWhile_append_of_pos (fun b hb => by rw [hWord b hb]; rfl)]
    cases rest with
    | nil => simp
    | cons b rest =>
      rw [List.takeWhile_cons_of_neg (by rw [hRest b rfl]; exact Bool.false_ne_true),
        List.append_nil]
  simp only [convert, hSkip, hTake, List.take_of_length_le hWidth, if_neg hne, List.drop_left]

theorem reads_byte {b : UInt8} (h : isSpace b = false) : Reads .c [b] (.text [b]) :=
  ⟨fun _ => skipSpace_cons h, fun _ => rfl⟩

end OsLabs.Stdio
