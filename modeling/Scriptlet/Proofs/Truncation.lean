import Scriptlet.Proofs.Echo
import Scriptlet.Proofs.Following

namespace Scriptlet

namespace Printing

def bytes (x : Printing) : ByteArray :=
  (x.text ++ "\n").toUTF8

/-- What prints write, one after another. -/
def output : List Printing → ByteArray
  | [] => .empty
  | x :: rest => x.bytes ++ output rest

theorem output_append (xs ys : List Printing) : output (xs ++ ys) = output xs ++ output ys := by
  induction xs with
  | nil => simp [output]
  | cons x xs ih => simp [output, ih, ByteArray.append_assoc]

theorem output_concat (xs : List Printing) (x : Printing) :
    output (xs ++ [x]) = output xs ++ x.bytes := by
  simp [output_append, output]

end Printing

theorem extract_all {bytes : ByteArray} {n : Nat} (h : bytes.size ≤ n) :
    bytes.extract 0 n = bytes := by
  rw [← Nat.max_eq_left h]
  exact ByteArray.extract_zero_max_size

theorem extract_append_left {xs ys : ByteArray} {n : Nat} (h : n ≤ xs.size) :
    (xs ++ ys).extract 0 n = xs.extract 0 n := by
  rw [ByteArray.extract_append, Nat.sub_eq_zero_of_le h, Nat.zero_sub, ByteArray.extract_same,
    ByteArray.append_empty]

namespace Sink

variable {written bytes : ByteArray} {flushes : Nat} {byteLimit flushLimit : Option Nat}
  {text : String}

/-- There is room for all the bytes. -/
theorem write_taken (hb : ∀ n ∈ byteLimit, written.size + bytes.size ≤ n) :
    (⟨written, flushes, byteLimit, flushLimit⟩ : Sink).write bytes =
      (true, ⟨written ++ bytes, flushes, byteLimit, flushLimit⟩) := by
  cases byteLimit with
  | none => rfl
  | some n =>
    have hroom : bytes.size ≤ n - written.size := by
      have := hb n rfl
      omega
    simp only [write, hroom, decide_true, extract_all hroom]

/-- There is room for the line, and it is confirmed. -/
theorem print_taken (hb : ∀ n ∈ byteLimit, written.size + (text ++ "\n").toUTF8.size ≤ n)
    (hf : ∀ m ∈ flushLimit, flushes < m) :
    (⟨written, flushes, byteLimit, flushLimit⟩ : Sink).print text =
      (true, ⟨written ++ (text ++ "\n").toUTF8, flushes + 1, byteLimit, flushLimit⟩) := by
  rw [print, write_taken hb]
  cases flushLimit with
  | none => rfl
  | some m => simp [flush, hf m rfl]

/-- There is no room for the whole line. -/
theorem print_full {n : Nat} (hw : written.size ≤ n)
    (hn : n < written.size + (text ++ "\n").toUTF8.size) :
    (⟨written, flushes, some n, flushLimit⟩ : Sink).print text =
      (false, ⟨(written ++ (text ++ "\n").toUTF8).extract 0 n, flushes, some n, flushLimit⟩) := by
  have hroom : ¬ (text ++ "\n").toUTF8.size ≤ n - written.size := by omega
  simp only [print, write, hroom, decide_false, ByteArray.extract_append, extract_all hw,
    Nat.zero_sub]

/-- The line is written, but not confirmed. -/
theorem print_unconfirmed {m : Nat}
    (hb : ∀ n ∈ byteLimit, written.size + (text ++ "\n").toUTF8.size ≤ n) (hm : m ≤ flushes) :
    (⟨written, flushes, byteLimit, some m⟩ : Sink).print text =
      (false, ⟨written ++ (text ++ "\n").toUTF8, flushes + 1, byteLimit, some m⟩) := by
  rw [print, write_taken hb]
  simp [flush, hm]

end Sink

/-- The prints stay within the limits of a sink. -/
structure Printing.Fit (byteLimit flushLimit : Option Nat) (xs : List Printing) : Prop where
  bytes : ∀ n ∈ byteLimit, (output xs).size ≤ n
  flushes : ∀ m ∈ flushLimit, xs.length ≤ m

namespace Printing

variable {byteLimit flushLimit : Option Nat} {past : List Printing} {x : Printing}

/-- A print within the limits. -/
theorem Fit.print (h : Fit byteLimit flushLimit (past ++ [x])) :
    (⟨output past, past.length, byteLimit, flushLimit⟩ : Sink).print x.text =
      (true, ⟨output (past ++ [x]), (past ++ [x]).length, byteLimit, flushLimit⟩) := by
  have hb : ∀ n ∈ byteLimit, (output past).size + x.bytes.size ≤ n := by
    simpa [output_concat, ByteArray.size_append] using h.bytes
  have hf : ∀ m ∈ flushLimit, past.length < m := by
    simpa [Nat.succ_le_iff] using h.flushes
  rw [output_concat, List.length_append]
  exact Sink.print_taken hb hf

/-- The first print beyond the limits: a part of its line is written, or the line is written and
not confirmed. -/
theorem Fit.print_beyond (hp : Fit byteLimit flushLimit past)
    (hx : ¬ Fit byteLimit flushLimit (past ++ [x])) :
    ∃ sink, (⟨output past, past.length, byteLimit, flushLimit⟩ : Sink).print x.text =
        (false, sink) ∧
      ((∃ n ∈ byteLimit, n < (output (past ++ [x])).size ∧
          sink.written = (output (past ++ [x])).extract 0 n) ∨
        ∃ m ∈ flushLimit, m = past.length ∧ sink.written = output (past ++ [x])) := by
  rw [output_concat]
  by_cases hb : ∀ n ∈ byteLimit, (output past).size + x.bytes.size ≤ n
  · have hf : ∃ m ∈ flushLimit, m < past.length + 1 := by
      refine Classical.byContradiction fun hf => hx ⟨?_, ?_⟩
      · simpa [output_concat, ByteArray.size_append] using hb
      · intro m hm
        exact Nat.le_of_not_lt fun hlt => hf ⟨m, hm, by simpa using hlt⟩
    obtain ⟨m, rfl, hm⟩ := hf
    have hfull : m = past.length := by
      have := hp.flushes m rfl
      omega
    exact ⟨_, Sink.print_unconfirmed hb (Nat.le_of_eq hfull), .inr ⟨m, rfl, hfull, rfl⟩⟩
  · obtain ⟨n, hn⟩ := Classical.not_forall.mp hb
    obtain ⟨rfl, hlt⟩ := Classical.not_imp.mp hn
    have hlt := Nat.lt_of_not_le hlt
    refine ⟨_, Sink.print_full (hp.bytes n rfl) hlt, .inl ⟨n, rfl, ?_, rfl⟩⟩
    rwa [ByteArray.size_append]

end Printing

/-- The same session with limits on its sink. -/
def Session.limit (s : Session) (byteLimit flushLimit : Option Nat) : Session :=
  ⟨s.scopes, s.functions, ⟨s.sink.written, s.sink.flushes, byteLimit, flushLimit⟩⟩

/-- A run on a sink with limits, beside the run on a sink that takes everything. -/
def Following.limited (byteLimit flushLimit : Option Nat) : Following where
  names := .none
  related past s t :=
    s.sink = ⟨Printing.output past, past.length, none, none⟩ ∧
      t = s.limit byteLimit flushLimit ∧ Printing.Fit byteLimit flushLimit past

theorem Following.limited_kept (byteLimit flushLimit : Option Nat) :
    (Following.limited byteLimit flushLimit).Kept where
  fresh h := by
    obtain ⟨_, rfl, _⟩ := h
    rfl
  lookup id name h := by
    obtain ⟨_, rfl, _⟩ := h
    rfl
  function {_ s _} name h := by
    obtain ⟨_, rfl, _⟩ := h
    exact (Function.map_rename_none (s.function? name)).symm
  openScope id h := by
    obtain ⟨hs, rfl, hp⟩ := h
    exact ⟨hs, rfl, hp⟩
  define id name b h := by
    obtain ⟨hs, rfl, hp⟩ := h
    exact ⟨(unnamed_none _).symm, hs, rfl, hp⟩
  reassign id name v h := by
    obtain ⟨hs, rfl, hp⟩ := h
    exact ⟨(unnamed_none _).symm, hs, rfl, hp⟩
  declare name f h := by
    obtain ⟨hs, rfl, hp⟩ := h
    refine ⟨hs, ?_, hp⟩
    rw [Following.limited, Function.rename_none]
    rfl
  print {past s _} line text h ht := by
    obtain ⟨hs, rfl, hp⟩ := h
    let x : Printing := ⟨line, text, s⟩
    have hlimited : (s.limit byteLimit flushLimit).sink =
        ⟨Printing.output past, past.length, byteLimit, flushLimit⟩ := by
      rw [Session.limit, hs]
    by_cases hx : Printing.Fit byteLimit flushLimit (past ++ [x])
    · have hfree : Printing.Fit none none (past ++ [x]) := ⟨by simp, by simp⟩
      refine ⟨?_, ?_, ?_, hx⟩
      · rw [Session.print_outcome, hs, hfree.print]
        rfl
      · rw [Session.print_session, hs, hfree.print]
      · rw [Session.print_session, Session.print_session, hlimited, hs, hx.print, hfree.print]
        rfl
    · obtain ⟨sink, hsink, _⟩ := hp.print_beyond hx
      rw [Session.print_outcome, hlimited, hsink] at ht
      cases ht

namespace Session

open Printing

/-- The prints that running a text in a session carries out. A text that cannot be read has none. -/
inductive Printed (s : Session) (text : String) : List Printing → Prop where
  | unreadable {e : Error} (h : Stmt.ofText text = .error e) : Printed s text []
  | program {body : List Stmt} {prints : List Printing} {a : Answer .program}
      (h : Stmt.ofText text = .ok body) (hp : Prints none (Plan.program body s) prints a) :
      Printed s text prints

/-- Running a text stops at a print that the sink refuses, with an error in its line. Nothing has
changed since the print began to write but what is written. -/
def StopsAt (s : Session) (text : String) (x : Printing) (written : ByteArray) : Prop :=
  ∃ fuel u, s.run fuel text = some (.error (.runtime ⟨.output, x.line⟩), u) ∧
    u.scopes = x.session.scopes ∧ u.functions = x.session.functions ∧ u.sink.written = written

variable {text : String} {body : List Stmt} {prints : List Printing} {a : Answer .program}
  {s : Session}

/-- A program in a fresh session on a sink with limits ends as it does on a sink without, or at the
first print beyond the limits. -/
theorem program_limited (h : Prints none (Plan.program body {}) prints a)
    (byteLimit flushLimit : Option Nat) :
    Follows.Ends (.limited byteLimit flushLimit) [] prints a
      (Plan.program body (({} : Session).limit byteLimit flushLimit)) := by
  have start : (Following.limited byteLimit flushLimit).related [] {}
      (({} : Session).limit byteLimit flushLimit) :=
    ⟨rfl, rfl, by simp [output], by simp⟩
  let task : Task .program := .program body
  have hf : Follows _ [] task.printLine? _ _ :=
    (Following.limited_kept byteLimit flushLimit).ofTask start
  rw [Following.limited, Task.rename_none] at hf
  exact (Following.limited_kept byteLimit flushLimit).ends h hf

/-- What is written in the end is what the prints have written. -/
theorem written_of_prints (h : Prints none (Plan.program body {}) prints a) :
    a.session.sink.written = output prints := by
  cases program_limited h none none with
  | together _ hr => rw [hr.1, List.nil_append]
  | @refused before _ x _ _ hr hx _ =>
    obtain ⟨hs, rfl, _⟩ := hr
    have hfit : Fit none none (before ++ [x]) := ⟨by simp, by simp⟩
    refine absurd ?_ hx
    rw [print_outcome, limit, hs, List.nil_append, hfit.print]
    rfl

/-- A run and its prints: the text cannot be read, or they are those of its program. -/
theorem run_printed {fuel : Nat} {r : Except Error Unit} {t : Session}
    (h : s.run fuel text = some (r, t)) (hp : s.Printed text prints) :
    (∃ e, Stmt.ofText text = .error e ∧ prints = [] ∧ r = .error e ∧ t = s) ∨
      ∃ body a, Stmt.ofText text = .ok body ∧ Prints none (Plan.program body s) prints a ∧
        reply a = (r, t) := by
  cases hp with
  | @unreadable e htext =>
    rw [run, completeText_unreadable htext] at h
    obtain ⟨rfl, rfl⟩ := Prod.mk.inj (Option.some.inj h)
    exact .inl ⟨e, htext, rfl, rfl, rfl⟩
  | @program body _ a htext ha =>
    obtain ⟨a', ha', hreply⟩ := (run_eq_some_iff htext).1 ⟨fuel, h⟩
    obtain rfl := ha'.unique ha.finishes
    exact .inr ⟨body, a', htext, ha, hreply⟩

theorem exists_printed {fuel : Nat} {x : Except Error Unit × Session}
    (h : s.run fuel text = some x) : ∃ prints, s.Printed text prints := by
  cases htext : Stmt.ofText text with
  | error e => exact ⟨[], .unreadable htext⟩
  | ok body =>
    obtain ⟨a, ha, _⟩ := (run_eq_some_iff htext).1 ⟨fuel, h⟩
    obtain ⟨prints, hp⟩ := ha.exists_prints none
    exact ⟨prints, .program htext hp⟩

theorem written_of_printed {fuel : Nat} {r : Except Error Unit} {t : Session}
    (h : ({} : Session).run fuel text = some (r, t)) (hp : ({} : Session).Printed text prints) :
    t.sink.written = output prints := by
  rcases run_printed h hp with ⟨_, _, rfl, _, rfl⟩ | ⟨_, a, _, ha, hreply⟩
  · rfl
  · rw [← written_of_prints ha]
    obtain ⟨_ | _, u⟩ := a <;> obtain ⟨_, rfl⟩ := Prod.mk.inj hreply <;> rfl

/-- A run on a sink with limits: it does not differ, or it stops at the first print beyond them. -/
theorem run_limited {fuel : Nat} {r : Except Error Unit} {t : Session}
    (h : ({} : Session).run fuel text = some (r, t)) (hp : ({} : Session).Printed text prints)
    (byteLimit flushLimit : Option Nat) :
    (Fit byteLimit flushLimit prints ∧
      ∃ fuel, (({} : Session).limit byteLimit flushLimit).run fuel text =
        some (r, t.limit byteLimit flushLimit)) ∨
    ∃ before x after written, prints = before ++ x :: after ∧ Fit byteLimit flushLimit before ∧
      (({} : Session).limit byteLimit flushLimit).StopsAt text x written ∧
      ((∃ n ∈ byteLimit, n < (output (before ++ [x])).size ∧
          written = (output (before ++ [x])).extract 0 n) ∨
        ∃ m ∈ flushLimit, m = before.length ∧ written = output (before ++ [x])) := by
  rcases run_printed h hp with ⟨e, htext, rfl, rfl, rfl⟩ | ⟨body, a, htext, ha, hreply⟩
  · exact .inl ⟨⟨by simp [output], by simp⟩, fuel, completeText_unreadable htext fuel⟩
  · cases program_limited ha byteLimit flushLimit with
    | together hend hr =>
      obtain ⟨_, rfl, hfit⟩ := hr
      rw [Following.outcome_of_none rfl] at hend
      refine .inl ⟨hfit, (run_eq_some_iff htext).2 ⟨_, hend, ?_⟩⟩
      obtain ⟨_ | _, u⟩ := a <;> obtain ⟨rfl, rfl⟩ := Prod.mk.inj hreply <;> rfl
    | @refused before after x _ hprints hr hx hend =>
      obtain ⟨hs, rfl, hfit⟩ := hr
      rw [List.nil_append] at hs hfit
      have hlimited : (x.session.limit byteLimit flushLimit).sink =
          ⟨output before, before.length, byteLimit, flushLimit⟩ := by
        rw [limit, hs]
      have hbeyond : ¬ Fit byteLimit flushLimit (before ++ [x]) := by
        intro hfit
        refine hx ?_
        rw [print_outcome, hlimited, hfit.print]
        rfl
      obtain ⟨sink, hprint, hwritten⟩ := hfit.print_beyond hbeyond
      rw [print_session, hlimited, hprint] at hend
      obtain ⟨fuel, hrun⟩ := (run_eq_some_iff htext).2 ⟨_, hend, rfl⟩
      exact .inr ⟨before, x, after, _, hprints, hfit, ⟨fuel, _, hrun, rfl, rfl, rfl⟩, hwritten⟩

/-- A sink that refuses something only cuts a run off. Say a text runs to an end on a sink that
takes everything, and carries out certain prints on the way. On a sink that takes `n` bytes nothing
is different if no more are written. Otherwise the run stops at the print that would write one byte
more, with the first `n` bytes written. On a sink that confirms `m` times nothing is different if
there are no more prints. Otherwise the run stops at the next print, whose line is written too. -/
theorem run_cut_off {fuel : Nat} {r : Except Error Unit} {t : Session}
    (h : ({} : Session).run fuel text = some (r, t)) :
    (∃ prints, ({} : Session).Printed text prints) ∧
    ∀ prints, ({} : Session).Printed text prints →
      t.sink.written = output prints ∧
      (∀ n, (t.sink.written.size ≤ n →
          ∃ fuel, (({} : Session).limit (some n) none).run fuel text =
            some (r, t.limit (some n) none)) ∧
        (n < t.sink.written.size →
          ∃ before x after, prints = before ++ x :: after ∧ (output before).size ≤ n ∧
            n < (output (before ++ [x])).size ∧
            (({} : Session).limit (some n) none).StopsAt text x (t.sink.written.extract 0 n))) ∧
      ∀ m, (prints.length ≤ m →
          ∃ fuel, (({} : Session).limit none (some m)).run fuel text =
            some (r, t.limit none (some m))) ∧
        (m < prints.length →
          ∃ before x after, prints = before ++ x :: after ∧ before.length = m ∧
            (({} : Session).limit none (some m)).StopsAt text x (output (before ++ [x]))) := by
  refine ⟨exists_printed h, ?_⟩
  intro prints hp
  have hwritten := written_of_printed h hp
  refine ⟨hwritten, fun n => ?_, fun m => ?_⟩
  · rw [hwritten]
    rcases run_limited h hp (some n) none with
      ⟨hfit, hrun⟩ | ⟨before, x, after, written, rfl, hfit, hstop, hcut⟩
    · have hle := hfit.bytes n rfl
      exact ⟨fun _ => hrun, fun hlt => absurd hle (Nat.not_le.mpr hlt)⟩
    · obtain ⟨hlt, rfl⟩ : n < (output (before ++ [x])).size ∧
          written = (output (before ++ [x])).extract 0 n := by simpa using hcut
      have hsplit : output (before ++ x :: after) = output (before ++ [x]) ++ output after := by
        rw [← output_append, List.append_assoc, List.singleton_append]
      have hfront : (output (before ++ x :: after)).extract 0 n =
          (output (before ++ [x])).extract 0 n := by
        rw [hsplit, extract_append_left (Nat.le_of_lt hlt)]
      refine ⟨fun hle => ?_, fun _ => ⟨before, x, after, rfl, hfit.bytes n rfl, hlt, ?_⟩⟩
      · rw [hsplit, ByteArray.size_append] at hle
        omega
      · rwa [hfront]
  · rcases run_limited h hp none (some m) with
      ⟨hfit, hrun⟩ | ⟨before, x, after, written, rfl, hfit, hstop, hcut⟩
    · have hle := hfit.flushes m rfl
      exact ⟨fun _ => hrun, fun hlt => absurd hle (Nat.not_le.mpr hlt)⟩
    · obtain ⟨rfl, rfl⟩ : m = before.length ∧ written = output (before ++ [x]) := by
        simpa using hcut
      refine ⟨fun hle => ?_, fun _ => ⟨before, x, after, rfl, rfl, hstop⟩⟩
      rw [List.length_append, List.length_cons] at hle
      omega

/-- For one, where the sink has no room for the line feed of the second print, which runs in a call
that is an argument of another call. -/
theorem run_cut_off_inside_call :
    ∃ r t prints before x after,
      run 80 "fn f(s: str) \x7b\n print(s)\n return s\n\x7d\nprint(f(f('ab')))" {} = some (r, t) ∧
      t.sink.written.size = 9 ∧
      ({} : Session).Printed "fn f(s: str) \x7b\n print(s)\n return s\n\x7d\nprint(f(f('ab')))"
        prints ∧
      prints = before ++ x :: after ∧
      (({} : Session).limit (some 5) none).StopsAt
        "fn f(s: str) \x7b\n print(s)\n return s\n\x7d\nprint(f(f('ab')))" x
        (t.sink.written.extract 0 5) := by
  have hsize : (run 80 "fn f(s: str) \x7b\n print(s)\n return s\n\x7d\nprint(f(f('ab')))" {}).map
      (·.2.sink.written.size) = some 9 := by decide +kernel
  obtain ⟨⟨r, t⟩, hrun, hsize⟩ := Option.map_eq_some_iff.mp hsize
  obtain ⟨⟨prints, hp⟩, hcut⟩ := run_cut_off hrun
  obtain ⟨before, x, after, hprints, _, _, hstop⟩ :=
    ((hcut prints hp).2.1 5).2 (by rw [hsize]; decide)
  exact ⟨r, t, prints, before, x, after, hrun, hsize, hp, hprints, hstop⟩

end Session

end Scriptlet
