import Mathlib.Data.List.DropRight
import Mathlib.Data.List.SplitBy
import TokenScript.CommandLine
import TokenScript.Proofs.Lockstep.Runs

/-!
# The command runs scripts as the library does

The command runs a script on a terminal, whose input is a stream of bytes and whose output is one
text; the library runs it on a console that holds its input lines and records what it shows.  If the
bytes are those of a text, and the lines are the lines of that text, then the two consoles give the
same answers from the first question to the last: the bytes that have not been read are those of the
lines that have not been read.

A line feed is a single byte in UTF-8, and that byte is part of no other character.  So the
terminal, which looks for bytes, cuts its input where the text has its line feeds, and each piece is
a text again.

* `Console.inputLines`: the lines of a text.
* `Console.Terminal.exists_piece`: where the terminal cuts its input.
* `Console.onTerminal`: a terminal keeps pace with the console that holds its lines.
* `command_agrees_with_library`: the reply of the command.
-/

namespace TokenScript

namespace Console

/-! ## Lines -/

/-- The lines of a text.  It is cut behind each line feed, and all carriage returns and line feeds
at the end of a line are dropped. -/
def inputLines (text : List Char) : List String :=
  (text.splitBy fun c _ => c ≠ '\n').map fun line =>
    String.ofList (line.rdropWhile fun c => c = '\n' || c = '\r')

section

variable {line more : List Char}

/-- There is no cut in a text whose line feed, if it has one, comes last. -/
theorem isChain_of_not_mem (h : '\n' ∉ line) (last : List Char) (hlast : last.length ≤ 1) :
    (line ++ last).IsChain fun c _ => decide (c ≠ '\n') = true := by
  refine List.isChain_append.2 ⟨?_, ?_, fun c hc _ _ => decide_eq_true ?_⟩
  · induction line with
    | nil => exact .nil
    | cons c line ih =>
      simp only [List.mem_cons, not_or] at h
      exact List.isChain_cons.2 ⟨fun _ _ => decide_eq_true (Ne.symm h.1), ih h.2⟩
  · match last with
    | [] => exact .nil
    | [c] => exact .singleton c
  · rintro rfl
    exact h (List.mem_of_getLast? hc)

/-- The first line of a text with a line feed reaches to that line feed. -/
theorem inputLines_append (h : '\n' ∉ line) :
    inputLines (line ++ '\n' :: more) =
      Terminal.dropLineEnd (String.ofList (line ++ ['\n'])) :: inputLines more := by
  rw [inputLines, List.append_cons, List.splitBy_append, List.splitBy_of_isChain]
  · rw [List.singleton_append, List.map_cons, Terminal.dropLineEnd, String.toList_ofList]
    rfl
  · simp
  · exact isChain_of_not_mem h ['\n'] (Nat.le_refl 1)
  · intro c hc _ _
    rw [List.getLast?_concat] at hc
    rw [← Option.mem_some.1 hc]
    rfl

/-- A text without a line feed is one line. -/
theorem inputLines_of_not_mem (h : '\n' ∉ line) (hne : line ≠ []) :
    inputLines line = [Terminal.dropLineEnd (String.ofList line)] := by
  have hchain := isChain_of_not_mem h [] (Nat.zero_le 1)
  rw [List.append_nil] at hchain
  rw [inputLines, List.splitBy_of_isChain hne hchain, List.map_singleton, Terminal.dropLineEnd,
    String.toList_ofList]
  rfl

end

namespace Terminal

/-! ## Bytes -/

/-- The byte of a line feed is part of no other character. -/
theorem lineFeed_not_mem_utf8EncodeChar {c : Char} (h : c ≠ '\n') :
    lineFeed ∉ String.utf8EncodeChar c := by
  have hval : c.val.toNat ≠ 10 := fun heq => h (Char.ext (UInt32.toNat_inj.1 heq))
  have hbyte : ∀ n : Nat, n < 256 → n ≠ 10 → lineFeed ≠ UInt8.ofNat n := by
    intro n hlt hne heq
    have hsame := congrArg UInt8.toNat heq
    rw [UInt8.toNat_ofNat', Nat.mod_eq_of_lt hlt] at hsame
    exact hne hsame.symm
  have hhigh : ∀ n : Nat, 128 ≤ n → n < 256 → lineFeed ≠ UInt8.ofNat n := fun n hle hlt =>
    hbyte n hlt (by omega)
  -- one byte that is the character, or several, each of them above ASCII
  unfold String.utf8EncodeChar
  dsimp only
  split
  · rw [List.mem_singleton]
    exact hbyte _ (by omega) hval
  · split
    · simp only [List.mem_cons, List.not_mem_nil, or_false, not_or]
      exact ⟨hhigh _ (by omega) (by omega), hhigh _ (by omega) (by omega)⟩
    · split
      · simp only [List.mem_cons, List.not_mem_nil, or_false, not_or]
        exact ⟨hhigh _ (by omega) (by omega), hhigh _ (by omega) (by omega),
          hhigh _ (by omega) (by omega)⟩
      · simp only [List.mem_cons, List.not_mem_nil, or_false, not_or]
        exact ⟨hhigh _ (by omega) (by omega), hhigh _ (by omega) (by omega),
          hhigh _ (by omega) (by omega),
          hhigh _ (by omega) (by omega)⟩

/-- The bytes of a text without a line feed. -/
theorem findIdx?_lineFeed {line : List Char} (h : '\n' ∉ line) :
    (line.flatMap String.utf8EncodeChar).findIdx? (· = lineFeed) = none := by
  refine List.findIdx?_eq_none_iff.2 fun byte hbyte => decide_eq_false ?_
  obtain ⟨c, hc, hbyte⟩ := List.mem_flatMap.1 hbyte
  rintro rfl
  refine lineFeed_not_mem_utf8EncodeChar ?_ hbyte
  rintro rfl
  exact h hc

theorem lineEnd?_eq (bytes : ByteArray) (index : Nat) :
    lineEnd? bytes index =
      ((bytes.data.toList.drop index).findIdx? (· = lineFeed)).map (index + · + 1) := by
  fun_induction lineEnd? bytes index with
  | case1 index hlt hfeed =>
    have hindex : index < bytes.data.toList.length := hlt
    have hget : bytes.data.toList[index] = lineFeed := hfeed
    rw [List.drop_eq_getElem_cons hindex, List.findIdx?_cons, hget, decide_eq_true rfl]
    rfl
  | case2 index hlt hfeed ih =>
    have hindex : index < bytes.data.toList.length := hlt
    have hget : bytes.data.toList[index] ≠ lineFeed := hfeed
    rw [List.drop_eq_getElem_cons hindex, List.findIdx?_cons, decide_eq_false hget, ih]
    simp only [Bool.false_eq_true, if_false, Option.map_map]
    congr 1
    funext n
    simp only [Function.comp_apply]
    omega
  | case3 index hge =>
    have hindex : bytes.data.toList.length ≤ index := Nat.le_of_not_lt hge
    rw [List.drop_eq_nil_of_le hindex]
    rfl

/-- The search for a line feed behind some bytes is a search in the text there. -/
theorem lineEnd?_utf8Encode (before : ByteArray) (text : List Char) :
    lineEnd? (before ++ text.utf8Encode) before.size =
      ((text.flatMap String.utf8EncodeChar).findIdx? (· = lineFeed)).map (before.size + · + 1) := by
  have hlength : before.data.toList.length = before.size := Array.length_toList
  have hbytes : (before ++ text.utf8Encode).data.toList.drop before.size =
      text.flatMap String.utf8EncodeChar := by
    rw [ByteArray.data_append, Array.toList_append, List.drop_left' hlength, List.utf8Encode,
      List.toList_data_toByteArray]
  rw [lineEnd?_eq, hbytes]

/-- Where the next line stops if no more bytes will arrive. -/
def lineStop (bytes : ByteArray) (index : Nat) : Nat := (lineEnd? bytes index).getD bytes.size

/-- A text that is not empty is a piece that is read as its first line, and the rest. -/
theorem exists_piece {text : List Char} (hne : text ≠ []) :
    ∃ piece rest, text = piece ++ rest ∧ piece ≠ [] ∧
      inputLines text = dropLineEnd (String.ofList piece) :: inputLines rest ∧
      ∀ before : ByteArray,
        lineStop (before ++ text.utf8Encode) before.size = (before ++ piece.utf8Encode).size := by
  by_cases hfeed : '\n' ∈ text
  · obtain ⟨line, more, rfl, hline⟩ := List.eq_append_cons_of_mem hfeed
    refine ⟨line ++ ['\n'], more, List.append_cons _ _ _, by simp, inputLines_append hline,
      fun before => ?_⟩
    have hbytes : (line ++ '\n' :: more).flatMap String.utf8EncodeChar =
        line.flatMap String.utf8EncodeChar ++ lineFeed :: more.flatMap String.utf8EncodeChar := by
      rw [List.flatMap_append, List.flatMap_cons]
      rfl
    have hsize : (before ++ (line ++ ['\n']).utf8Encode).size =
        before.size + (line.flatMap String.utf8EncodeChar).length + 1 := by
      rw [ByteArray.size_append, List.utf8Encode, List.size_toByteArray, List.flatMap_append,
        List.length_append, ← Nat.add_assoc]
      rfl
    rw [lineStop, lineEnd?_utf8Encode, hbytes, List.findIdx?_append, findIdx?_lineFeed hline,
      List.findIdx?_cons, decide_eq_true rfl, hsize]
    simp only [if_true, Option.none_or, Option.map_some, Option.getD_some, Nat.zero_add]
  · refine ⟨text, [], (List.append_nil _).symm, hne, inputLines_of_not_mem hfeed hne,
      fun before => ?_⟩
    rw [lineStop, lineEnd?_utf8Encode, findIdx?_lineFeed hfeed]
    rfl

theorem fromUTF8?_utf8Encode (text : List Char) :
    String.fromUTF8? text.utf8Encode = some (String.ofList text) := by
  rw [String.fromUTF8?, dif_pos ⟨text, rfl⟩]
  rfl

theorem extract_middle (before middle after : ByteArray) :
    (before ++ (middle ++ after)).extract before.size (before ++ middle).size = middle := by
  have hbefore : before.extract before.size (before ++ middle).size = ByteArray.empty :=
    ByteArray.extract_eq_empty_iff.2 (by simp)
  rw [ByteArray.extract_append, hbefore, ByteArray.empty_append, ByteArray.extract_append,
    ByteArray.size_append]
  simp

/-- At the end of the input there is nothing to read. -/
theorem lineStop_nil (before : ByteArray) :
    lineStop (before ++ ([] : List Char).utf8Encode) before.size = before.size := by
  rw [lineStop, lineEnd?_utf8Encode, List.utf8Encode_nil, ByteArray.append_empty]
  rfl

theorem size_lt_size_append {piece : List Char} (hne : piece ≠ []) (before : ByteArray) :
    before.size < (before ++ piece.utf8Encode).size := by
  obtain ⟨c, rest, rfl⟩ := List.exists_cons_of_ne_nil hne
  rw [ByteArray.size_append, List.utf8Encode, List.size_toByteArray, List.flatMap_cons,
    List.length_append, String.length_utf8EncodeChar]
  have hpos := Char.utf8Size_pos c
  omega

/-! ## Reading -/

section

variable {terminal : Terminal} {before : ByteArray} {text : List Char}

/-- A terminal to which no more bytes will arrive reads up to the stop of the line. -/
theorem readLine_of_ended (hended : terminal.ended = true) (hprompted : terminal.prompted = false)
    (prompt : String) :
    readLine prompt terminal =
      let stop := lineStop terminal.arrived terminal.consumed
      let rest :=
        { terminal with written := prompt :: terminal.written, prompted := false, consumed := stop }
      if stop = terminal.consumed then (.ok none, rest)
      else match String.fromUTF8? (terminal.arrived.extract terminal.consumed stop) with
        | some line => (.ok (some (dropLineEnd line)), rest)
        | none => (.error notText, rest) := by
  simp only [readLine, lineStop, hended, hprompted]
  cases lineEnd? terminal.arrived terminal.consumed <;> rfl

end
end Terminal

/-! ## A terminal and the lines of its input -/

/-- What an exchange shows: a prompt as it is, and a line with a line feed. -/
def Exchange.shown : Exchange → String
  | .prompt text => text
  | .line text => text ++ "\n"

/-- All that a transcript shows, in order. -/
def shown (transcript : List Exchange) : String :=
  String.join (transcript.reverse.map Exchange.shown)

@[simp] theorem shown_cons (exchange : Exchange) (transcript : List Exchange) :
    shown (exchange :: transcript) = shown transcript ++ exchange.shown := by
  simp [shown, String.join_append, String.join_cons]

/-- The terminal has shown what the console has recorded, and the bytes that it has not read are
those of a text whose lines the console holds. -/
structure Serves (console : Buffered) (terminal : Terminal) : Prop where
  ended : terminal.ended = true
  prompted : terminal.prompted = false
  input : ∃ (before : ByteArray) (text : List Char), terminal.arrived = before ++ text.utf8Encode ∧
    terminal.consumed = before.size ∧ console.inputs = inputLines text
  output : terminal.output = shown console.transcript

namespace Serves

variable {console : Buffered} {terminal : Terminal}

theorem start (text : String) :
    Serves ⟨inputLines text.toList, []⟩ { arrived := text.toUTF8, ended := true } where
  ended := rfl
  prompted := rfl
  input := ⟨ByteArray.empty, text.toList, by simp [String.toUTF8_eq_toByteArray], rfl, rfl⟩
  output := rfl

/-- Both answer a question alike, and show its prompt. -/
theorem read (h : Serves console terminal) (prompt : String) :
    (readLine prompt console).1 = (readLine prompt terminal).1 ∧
      Serves (readLine prompt console).2 (readLine prompt terminal).2 := by
  obtain ⟨before, text, harrived, hconsumed, hinputs⟩ := h.input
  have houtput : String.join (prompt :: terminal.written).reverse =
      shown (.prompt prompt :: console.transcript) := by
    rw [shown_cons, ← h.output]
    simp [Terminal.output, String.join_append, String.join_cons, Exchange.shown]
  rw [Terminal.readLine_of_ended h.ended h.prompted]
  obtain ⟨inputs, transcript⟩ := console
  by_cases htext : text = []
  · subst htext
    obtain rfl : inputs = [] := hinputs
    have hstop : Terminal.lineStop terminal.arrived terminal.consumed = terminal.consumed := by
      rw [harrived, hconsumed, Terminal.lineStop_nil]
    dsimp only
    rw [if_pos hstop]
    exact ⟨rfl, h.ended, rfl, ⟨before, [], harrived, hstop.trans hconsumed, rfl⟩, houtput⟩
  · obtain ⟨piece, rest, rfl, hpiece, hlines, hstops⟩ := Terminal.exists_piece htext
    obtain rfl : inputs = _ :: inputLines rest := hinputs.trans hlines
    have hstop :
        Terminal.lineStop terminal.arrived terminal.consumed =
          (before ++ piece.utf8Encode).size := by
      rw [harrived, hconsumed, hstops before]
    have hread : ¬Terminal.lineStop terminal.arrived terminal.consumed = terminal.consumed := by
      rw [hstop, hconsumed]
      exact Nat.ne_of_gt (Terminal.size_lt_size_append hpiece before)
    have hline : String.fromUTF8? (terminal.arrived.extract terminal.consumed
        (Terminal.lineStop terminal.arrived terminal.consumed)) = some (String.ofList piece) := by
      rw [hstop, harrived, hconsumed, List.utf8Encode_append, Terminal.extract_middle,
        Terminal.fromUTF8?_utf8Encode]
    dsimp only
    rw [if_neg hread, hline]
    refine ⟨rfl, h.ended, rfl, ⟨before ++ piece.utf8Encode, rest, ?_, hstop, rfl⟩, houtput⟩
    rw [harrived, List.utf8Encode_append, ByteArray.append_assoc]

/-- Both write a line. -/
theorem write (h : Serves console terminal) (line : String) :
    (writeLine line console).1 = (writeLine line terminal).1 ∧
      Serves (writeLine line console).2 (writeLine line terminal).2 := by
  refine ⟨rfl, h.ended, h.prompted, h.input, ?_⟩
  have houtput : String.join ("\n" :: line :: terminal.written).reverse =
      shown (.line line :: console.transcript) := by
    rw [shown_cons, ← h.output]
    simp [Terminal.output, String.join_append, String.join_cons, Exchange.shown]
  exact houtput

end Serves

/-- A terminal keeps pace with the console that holds the lines of its input. -/
def onTerminal : Pairing Buffered Terminal where
  Together := Serves
  Cut _ _ _ := False
  read h prompt := Or.inl (h.read prompt)
  write h line := Or.inl (h.write line)
  cut_later h _ := h

end Console

/-! ## The command -/

open Console

/-- The bytes of a text that can be read from them. -/
theorem toUTF8_of_fromUTF8? {bytes : ByteArray} {text : String}
    (h : String.fromUTF8? bytes = some text) :
    text.toUTF8 = bytes := by
  rw [String.fromUTF8?] at h
  split at h
  · rw [← Option.some.inj h]
    rfl
  · cases h

/-- If a run on the lines of a text comes to an end, so does the run on a terminal with the bytes of
that text.  Both have the same outcome and show the same. -/
theorem exists_runTokens_terminal {fuel : Nat} {context : Context} {text : String}
    {tokens : Array Token} {report : Report Buffered}
    (h : context.runTokens fuel ⟨inputLines text.toList, []⟩ .silent tokens = some report) :
    ∃ other : Report Terminal,
      context.runTokens fuel { arrived := text.toUTF8, ended := true } .silent tokens = some other ∧
        other.outcome = report.outcome ∧
        other.console.output = shown report.console.transcript := by
  have hlowers := onTerminal.lowers_refl context.callLimit
  obtain ⟨other, hother, ⟨terminal, -, hserves⟩ | ⟨e, -, hcut⟩⟩ :=
    hlowers.exists_runTokens (Serves.start text) h
  · exact ⟨_, hother, rfl, hserves.output⟩
  · exact hcut.elim

/-- The command replies with what the library reports, for every script that it can load, every
setting of the call limit and every input that is a text.  If the run of the script on the lines of
the input comes to an end, so does the command; its output is what the run showed, prompts and lines
in their order.  If the run succeeded, the command succeeds in silence; otherwise it fails with the
diagnostic of the error. -/
theorem command_agrees_with_library {arguments : List String} {tree : FileTree}
    {path source : String} (hpath : Invocation.parse none arguments = .run path)
    (hsource : Script.load tree path = .ok source) (setting : Option String) {stdin : ByteArray}
    {text : String} (hstdin : String.fromUTF8? stdin = some text) {fuel : Nat}
    {report : Report Buffered}
    (hreport : (Context.fresh (CallLimit.ofSetting setting).1).runSource fuel
      ⟨inputLines text.toList, []⟩ .silent source = some report) :
    ∃ reply,
      (∀ more, fuel ≤ more → CommandLine.run more arguments tree setting stdin = some reply) ∧
      reply.stdout = shown report.console.transcript ∧
      ((∃ tokens signal, tokenize source = .ok tokens ∧ report.outcome = .done signal ∧
          reply.code = 0 ∧ reply.stderr = "") ∨
        ∃ e, report.outcome = .failed e ∧ reply.code = 1 ∧
          reply.stderr = (Diagnostic.ofError e).render path source) := by
  have hcommand : ∀ more, CommandLine.run more arguments tree setting stdin =
      CommandLine.runScript more setting { arrived := text.toUTF8, ended := true } path source := by
    intro more
    rw [CommandLine.run, hpath, toUTF8_of_fromUTF8? hstdin]
    simp only [Reply.ofInvocation, hsource]
  simp only [hcommand]
  unfold Context.runSource at hreport
  unfold CommandLine.runScript
  cases htokens : tokenize source with
  | error e =>
    rw [htokens] at hreport
    obtain rfl := Option.some.inj hreport
    exact ⟨_, fun more _ => rfl, rfl, Or.inr ⟨e, rfl, rfl, rfl⟩⟩
  | ok tokens =>
    rw [htokens] at hreport
    obtain ⟨other, hother, houtcome, houtput⟩ := exists_runTokens_terminal hreport
    refine ⟨.ofOutcome path source other.console.output other.outcome, fun more hle => ?_, ?_⟩
    · simp only [Context.runTokens_mono hle hother, Option.map_some]
    · rw [houtcome, houtput]
      cases hended : report.outcome with
      | done signal => exact ⟨rfl, Or.inl ⟨tokens, signal, rfl, rfl, rfl, rfl⟩⟩
      | failed e => exact ⟨rfl, Or.inr ⟨e, rfl, rfl, rfl⟩⟩
      | fault => exact absurd hended (Context.ne_fault_of_runTokens hreport)

/-- A script that asks for a line, prints it, and then fails. -/
def askingSource : String := "input x\nprint x\nexec"

/-- A directory with the script. -/
def askingTree : FileTree := ⟨[(["a.okerew"], some askingSource.toUTF8)]⟩

/-- A character that is not a slash does not end a component of a path. -/
theorem splitOnAux_of_ne {path : String} {place : String.Pos.Raw} (hend : place.atEnd path = false)
    (hne : place.get path ≠ '/') :
    path.splitOnAux "/" 0 place 0 [] = path.splitOnAux "/" 0 (place.next path) 0 [] := by
  have hslash : String.Pos.Raw.get "/" 0 = '/' := by decide +kernel
  rw [String.splitOnAux]
  simp [hend, hne, hslash, String.Pos.Raw.unoffsetBy]

theorem load_askingTree : Script.load askingTree "a.okerew" = .ok askingSource := by
  have hcomponents : "a.okerew".splitOn "/" = ["a.okerew"] := by
    show "a.okerew".splitOnAux "/" 0 0 0 [] = _
    iterate 8 rw [splitOnAux_of_ne (by decide +kernel) (by decide +kernel)]
    rw [String.splitOnAux]
    decide +kernel
  simp only [Script.load, Script.isNamed, Path.extension?, Path.fileName?, Path.names,
    Path.components, FileTree.read, hcomponents]
  decide +kernel

theorem command_agrees_with_library_asking :
    Invocation.parse none ["a.okerew"] = .run "a.okerew" ∧
    Script.load askingTree "a.okerew" = .ok askingSource ∧
    String.fromUTF8? "7\r\n".toUTF8 = some "7\r\n" ∧
    ∃ (report : Report Buffered) (reply : Reply),
      (Context.fresh (CallLimit.ofSetting (some "3")).1).runSource 20
        ⟨inputLines "7\r\n".toList, []⟩ .silent
        askingSource = some report ∧
      CommandLine.run 20 ["a.okerew"] askingTree (some "3") "7\r\n".toUTF8 = some reply ∧
      reply.code = 1 ∧ reply.stdout = "Enter value for x: 7\n" ∧
      reply.stderr = "error[E_SYNTAX]: expected a name after `exec`, found end of input\n" ++
        "  --> a.okerew:3:1\n   |\n  3 | exec\n   | ^\n" := by
  have hpath : Invocation.parse none ["a.okerew"] = .run "a.okerew" := by decide +kernel
  have hstdin : String.fromUTF8? "7\r\n".toUTF8 = some "7\r\n" := by decide +kernel
  have hran : ((Context.fresh (CallLimit.ofSetting (some "3")).1).runSource 20
      (⟨inputLines "7\r\n".toList, []⟩ : Buffered) .silent askingSource).map
        (fun report => (report.outcome, report.console)) =
      some (.failed ⟨.structural (.nameExpected .exec none), ⟨3, 0⟩⟩,
        ⟨[], [.line "7", .prompt "Enter value for x: "]⟩) := by decide +kernel
  obtain ⟨report, hreport, hshown⟩ := Option.map_eq_some_iff.1 hran
  obtain ⟨houtcome, hconsole⟩ := Prod.mk.inj hshown
  obtain ⟨reply, hrun, hstdout, hended⟩ :=
    command_agrees_with_library hpath load_askingTree (some "3") hstdin hreport
  refine ⟨hpath, load_askingTree, hstdin, report, reply, hreport, hrun 20 (Nat.le_refl 20), ?_⟩
  rw [houtcome] at hended
  rw [hconsole] at hstdout
  rcases hended with ⟨tokens, signal, -, hdone, -⟩ | ⟨e, hfailed, hcode, hstderr⟩
  · cases hdone
  · obtain rfl := Outcome.failed.inj hfailed
    refine ⟨hcode, hstdout.trans (by decide +kernel), hstderr.trans (by decide +kernel)⟩

end TokenScript
