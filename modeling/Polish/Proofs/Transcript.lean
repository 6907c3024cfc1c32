import Mathlib
import Polish.Proofs.Tiling
import Polish.Session

/-! What a session writes. A computation that writes to the console has one sequence of bytes that it writes
    where streams are unlimited, and one way to end; a console without enough room takes the bytes up to the
    first for which its stream has none. A session is played line by line, and each line has its block of
    bytes. -/

namespace Polish

/-- A text as it is written to a stream. -/
def Stream.bytes (stream : Stream) (text : String) : List (Stream × UInt8) :=
  (Utf8.encode text.toList).map (stream, ·)

/-- A text and the end of the line, as they are written to a stream. -/
def Stream.line (stream : Stream) (text : String) : List (Stream × UInt8) :=
  stream.bytes (text ++ "\n")

namespace Console
variable {console : Console} {stream : Stream}

/-! ### Bytes in a row -/

/-- Adds one byte after another, up to the first for which its stream has no room. The answer is whether there
    was none. -/
def feed (console : Console) : List (Stream × UInt8) → Bool × Console
  | [] => (true, console)
  | (stream, byte) :: bytes =>
    if console.room stream = some 0 then (false, console) else (console.put stream [byte]).feed bytes

theorem feed_append (a b : List (Stream × UInt8)) :
    console.feed (a ++ b) =
      match console.feed a with
      | (true, after) => after.feed b
      | (false, after) => (false, after) := by
  induction a generalizing console with
  | nil => rfl
  | cons entry a ih =>
    obtain ⟨stream, byte⟩ := entry
    rw [List.cons_append, feed, feed]
    split
    · rfl
    · exact ih

theorem put_nil : console.put stream [] = console := by
  rcases console with ⟨_ | _, _ | _, _⟩ <;> cases stream <;> simp [put]

theorem put_append (a b : List UInt8) : (console.put stream a).put stream b = console.put stream (a ++ b) := by
  rcases console with ⟨_ | _, _ | _, _⟩ <;> cases stream <;> simp [put, Nat.sub_sub, ← Array.toList_inj]

theorem room_put (bytes : List UInt8) :
    (console.put stream bytes).room stream = (console.room stream).map (· - bytes.length) := by
  cases stream <;> rfl

/-- A text is written byte by byte. -/
theorem feed_map (bytes : List UInt8) :
    console.feed (bytes.map (stream, ·)) =
      (decide ((((console.room stream).map bytes.take).getD bytes).length = bytes.length),
        console.put stream (((console.room stream).map bytes.take).getD bytes)) := by
  induction bytes generalizing console with
  | nil =>
    rcases h : console.room stream with _ | room <;> simp [feed, put_nil]
  | cons byte bytes ih =>
    rw [List.map_cons, feed]
    -- Without a limit, with no room left, and with room for one byte at least.
    rcases h : console.room stream with _ | _ | room
    · simp [ih, room_put, h, put_append]
    · simp [put_nil]
    · simp [ih, room_put, h, put_append]

theorem feed_unlimited (bytes : List (Stream × UInt8)) (written : Array (Stream × UInt8)) :
    feed ⟨none, none, written⟩ bytes = (true, ⟨none, none, written ++ bytes⟩) := by
  induction bytes generalizing written with
  | nil => simp [feed]
  | cons entry bytes ih =>
    obtain ⟨stream, byte⟩ := entry
    cases stream <;> simp [feed, room, put, ih]

/-! ### Computations -/

/-- A computation writes the bytes as far as there is room for them, and it ends as given if there is room for
    all. -/
def Plays (action : ConsoleM Unit) (bytes : List (Stream × UInt8)) (ending : Except Interruption Unit) : Prop :=
  ∀ console : Console, action console =
    match console.feed bytes with
    | (true, after) => (ending, after)
    | (false, after) => (.error .failedStream, after)

theorem run_bind (first : ConsoleM Unit) (second : Unit → ConsoleM Unit) (console : Console) :
    (first >>= second) console =
      match first console with
      | (.ok value, after) => second value after
      | (.error interruption, after) => (.error interruption, after) := by
  change ExceptT.bindCont second (first console).1 (first console).2 = _
  rcases first console with ⟨_ | _, _⟩ <;> rfl

namespace Plays
variable {first : ConsoleM Unit} {second : Unit → ConsoleM Unit} {a b : List (Stream × UInt8)}
  {ending : Except Interruption Unit} {interruption : Interruption}

theorem pure : Plays (Pure.pure ()) [] (.ok ()) := fun _ => rfl

theorem throw : Plays (MonadExcept.throw interruption) [] (.error interruption) := fun _ => rfl

theorem write (stream : Stream) (text : String) : Plays (Console.write stream text) (stream.bytes text) (.ok ()) := by
  intro console
  rw [Stream.bytes, feed_map, Console.write]
  split
  · next h => rw [decide_eq_true h]
  · next h => rw [decide_eq_false h]

theorem writeLine (stream : Stream) (text : String) :
    Plays (Console.writeLine stream text) (stream.line text) (.ok ()) :=
  write stream (text ++ "\n")

theorem bind (h : Plays first a (.ok ())) (h' : Plays (second ()) b ending) :
    Plays (first >>= second) (a ++ b) ending := by
  intro console
  rw [run_bind, h, feed_append]
  rcases console.feed a with ⟨_ | _, after⟩
  · rfl
  · exact h' after

theorem bind_error (h : Plays first a (.error interruption)) : Plays (first >>= second) a (.error interruption) := by
  intro console
  rw [run_bind, h]
  rcases console.feed a with ⟨_ | _, after⟩ <;> rfl

section
variable {α : Type} {action : α → ConsoleM Unit} {block : α → List (Stream × UInt8)} {xs front back : List α} {x : α}

theorem forM (h : ∀ x ∈ xs, Plays (action x) (block x) (.ok ())) :
    Plays (xs.forM action) (xs.flatMap block) (.ok ()) := by
  induction xs with
  | nil => exact pure
  | cons x xs ih =>
    obtain ⟨h1, h2⟩ := List.forall_mem_cons.mp h
    exact bind h1 (ih h2)

theorem forM_error (h : ∀ x ∈ front, Plays (action x) (block x) (.ok ()))
    (h' : Plays (action x) b (.error interruption)) :
    Plays ((front ++ x :: back).forM action) (front.flatMap block ++ b) (.error interruption) := by
  induction front with
  | nil => exact bind_error h'
  | cons y front ih =>
    obtain ⟨h1, h2⟩ := List.forall_mem_cons.mp h
    rw [List.flatMap_cons, List.append_assoc]
    exact bind h1 (ih h2)

end

theorem unlimited {action : ConsoleM Unit} (h : Plays action a ending) :
    action .unlimited = (ending, ⟨none, none, a.toArray⟩) := by
  rw [h, Console.unlimited, feed_unlimited]
  simp

end Plays

end Console

/-! ### Sessions -/

namespace Session
open Console

/-- The line has no error with a caret too far to the right. -/
def Drawable (options : Options) (line : List Char) : Prop :=
  ∀ error, evaluate line options.label options.mode = .error error → error.shownColumn line + 1 ≤ maxCaretWidth

/-- The list of the tokens of a line, if it is asked for and can be had. -/
def listing (options : Options) (line : List Char) : List (Stream × UInt8) :=
  match options.tokens, tokenize line options.label with
  | true, .ok tokens => tokens.flatMap fun token => Stream.out.line token.entry
  | _, _ => []

/-- The rendering of a line, or its diagnostic if there is one. -/
def reply (options : Options) (line : List Char) : List (Stream × UInt8) :=
  match evaluate line options.label options.mode with
  | .ok rendered => Stream.out.line rendered
  | .error error => ((error.diagnostic? line).map Stream.err.line).getD []

/-- What is written for one line: nothing but the prompt if it has no token but the closing one. -/
def block (options : Options) (line : List Char) : List (Stream × UInt8) :=
  Stream.out.bytes options.prompt ++
    match tokenize line options.label with
    | .ok [_] => []
    | _ => listing options line ++ reply options line

/-- All that a session writes to unlimited streams. -/
def written (options : Options) (input : Input) : List (Stream × UInt8) :=
  (run options input .unlimited).2.written.toList

variable {options : Options} {line : List Char}

theorem plays_list : Plays (list options line) (listing options line) (.ok ()) := by
  unfold list listing
  cases options.tokens with
  | false => exact .pure
  | true =>
    simp only [↓reduceIte]
    rcases tokenize line options.label with error | tokens
    · exact .pure
    · exact .forM fun token _ => .writeLine .out token.entry

theorem diagnostic?_eq_none_iff {error : Error} :
    error.diagnostic? line = none ↔ maxCaretWidth < error.shownColumn line + 1 := by
  simp only [Error.diagnostic?]
  split <;> simp <;> omega

theorem Drawable.exists_diagnostic {error : Error} (drawable : Drawable options line)
    (h : evaluate line options.label options.mode = .error error) :
    ∃ diagnostic, error.diagnostic? line = some diagnostic := by
  apply Option.ne_none_iff_exists'.mp
  exact mt diagnostic?_eq_none_iff.mp (Nat.not_lt_of_le (drawable error h))

theorem plays_answer (drawable : Drawable options line) :
    Plays (answer options line) (reply options line) (.ok ()) := by
  unfold answer reply
  rcases h : evaluate line options.label options.mode with error | rendered
  · obtain ⟨diagnostic, hd⟩ := drawable.exists_diagnostic h
    simp only [hd, Option.map_some, Option.getD_some]
    exact .writeLine .err diagnostic
  · exact .writeLine .out rendered

theorem plays_answer_error (far : ¬Drawable options line) : Plays (answer options line) [] (.error .caretTooFar) := by
  simp only [Drawable, not_forall, Nat.not_le] at far
  obtain ⟨error, h, far⟩ := far
  unfold answer
  simp only [h, diagnostic?_eq_none_iff.mpr far]
  exact .throw

/-! A diagnostic leaves out the white space at the start, so its caret stands within the rest of the line. -/

theorem shownColumn_le (error : Error) (line : List Char) :
    error.shownColumn line ≤ line.length - (line.takeWhile isBlank).length := by
  have inside : column line error.position.offset.toNat ≤ line.length := by
    unfold column
    split
    · exact Nat.sub_le _ _
    · exact Nat.zero_le _
  exact Nat.sub_le_sub_right inside _

theorem drawable_of_lt (h : line.length - (line.takeWhile isBlank).length < maxCaretWidth) : Drawable options line :=
  fun error _ => Nat.lt_of_le_of_lt (shownColumn_le error line) h

theorem drawable_of_blank (h : ∀ c ∈ line, isBlank c = true) : Drawable options line := by
  apply drawable_of_lt
  rw [List.takeWhile_eq_self_iff.mpr h, Nat.sub_self]
  decide

theorem block_of_blank (h : ∀ c ∈ line, isBlank c = true) : block options line = Stream.out.bytes options.prompt := by
  obtain ⟨token, ht, -⟩ : ∃ token, tokenize line options.label = .ok [token] ∧ token.kind = .endOfText :=
    tokenize_of_blank h
  rw [block, ht]
  exact List.append_nil _

theorem block_of_not_blank (h : ¬∀ c ∈ line, isBlank c = true) :
    block options line = Stream.out.bytes options.prompt ++ (listing options line ++ reply options line) := by
  unfold block
  split
  · next ht => exact absurd (blank_of_tokenize ht).2 h
  · rfl

theorem plays_turn {bytes : List UInt8} (drawable : Drawable options (lineText bytes)) :
    Plays (turn options bytes) (block options (lineText bytes)) (.ok ()) := by
  unfold turn respond
  by_cases blank : ∀ c ∈ lineText bytes, isBlank c = true
  · rw [block_of_blank blank, if_pos (List.all_eq_true.mpr blank), ← List.append_nil (Stream.bytes _ _)]
    exact .bind (.write .out options.prompt) .pure
  · rw [block_of_not_blank blank, if_neg (blank ∘ List.all_eq_true.mp)]
    exact .bind (.write .out options.prompt) (.bind plays_list (plays_answer drawable))

theorem plays_turn_error {bytes : List UInt8} (far : ¬Drawable options (lineText bytes)) :
    Plays (turn options bytes) (Stream.out.bytes options.prompt ++ listing options (lineText bytes))
      (.error .caretTooFar) := by
  unfold turn respond
  rw [if_neg fun blank => far (drawable_of_blank (List.all_eq_true.mp blank)),
    ← List.append_nil (listing options (lineText bytes))]
  exact .bind (.write .out options.prompt) (.bind plays_list (plays_answer_error far))

/-! ### Runs -/

/-- What is written when there are no more lines, or when reading fails. -/
def farewell (options : Options) (input : Input) : List (Stream × UInt8) :=
  Stream.out.bytes options.prompt ++ if input.fails then [] else Stream.out.bytes "\n"

theorem plays_run {input : Input} (drawable : ∀ line ∈ input.lines, Drawable options (lineText line)) :
    Plays (run options input)
      (input.lines.flatMap (fun line => block options (lineText line)) ++ farewell options input)
      (if input.fails then .error .failedStream else .ok ()) := by
  unfold run farewell
  refine .bind (.forM fun line hl => plays_turn (drawable line hl)) (.bind (.write .out options.prompt) ?_)
  cases input.fails with
  | true => exact .throw
  | false => exact .writeLine .out ""

theorem plays_run_error {input : Input} {front back : List (List UInt8)} {line : List UInt8}
    (lines : input.lines = front ++ line :: back) (drawable : ∀ line ∈ front, Drawable options (lineText line))
    (far : ¬Drawable options (lineText line)) :
    Plays (run options input)
      (front.flatMap (fun line => block options (lineText line)) ++
        (Stream.out.bytes options.prompt ++ listing options (lineText line)))
      (.error .caretTooFar) := by
  unfold run
  rw [lines]
  exact .bind_error (.forM_error (fun line hl => plays_turn (drawable line hl)) (plays_turn_error far))

/-- All lines can be answered, or there is a first one that cannot. -/
theorem drawable_or_first (options : Options) (lines : List (List UInt8)) :
    (∀ line ∈ lines, Drawable options (lineText line)) ∨
    ∃ front line back, lines = front ++ line :: back ∧ (∀ line ∈ front, Drawable options (lineText line)) ∧
      ¬Drawable options (lineText line) := by
  induction lines with
  | nil => exact Or.inl nofun
  | cons line lines ih =>
    by_cases hd : Drawable options (lineText line)
    · rcases ih with all | ⟨front, far, back, rfl, before, hf⟩
      · exact Or.inl (List.forall_mem_cons.mpr ⟨hd, all⟩)
      · exact Or.inr ⟨line :: front, far, back, rfl, List.forall_mem_cons.mpr ⟨hd, before⟩, hf⟩
    · exact Or.inr ⟨[], line, lines, rfl, nofun, hd⟩

theorem drawable_of_run {input : Input} (safe : (run options input .unlimited).1 ≠ .error .caretTooFar) :
    ∀ line ∈ input.lines, Drawable options (lineText line) := by
  rcases drawable_or_first options input.lines with all | ⟨front, line, back, lines, before, far⟩
  · exact all
  · rw [(plays_run_error lines before far).unlimited] at safe
    exact absurd rfl safe

end Session

end Polish
