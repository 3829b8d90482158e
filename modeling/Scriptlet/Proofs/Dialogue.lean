import Scriptlet.Console
import Scriptlet.Proofs.Following
import Scriptlet.Proofs.Requests

namespace Scriptlet

/-- Two sessions that differ only in how their output began. -/
inductive Session.Beside (out out' : ByteArray) : Session → Session → Prop where
  | mk (scopes : Scopes) (functions : List (String × Function)) (written : ByteArray)
      (flushes : Nat) :
      Beside out out' ⟨scopes, functions, ⟨out ++ written, flushes, none, none⟩⟩
        ⟨scopes, functions, ⟨out' ++ written, flushes, none, none⟩⟩

/-- A run whose output began in one way, beside a run whose output began in another way. -/
def Following.beside (out out' : ByteArray) : Following where
  names := .none
  related _ s t := s.Beside out out' t

namespace Session.Beside

variable {out out' : ByteArray} {s t : Session} {f : Form}

theorem write (h : s.Beside out out' t) (bytes : ByteArray) :
    Beside out out' ⟨s.scopes, s.functions, (s.sink.write bytes).2⟩
      ⟨t.scopes, t.functions, (t.sink.write bytes).2⟩ := by
  cases h
  simp only [Sink.write, ByteArray.append_assoc]
  exact .mk ..

theorem print (h : s.Beside out out' t) (text : String) :
    (s.print text).1 = .ok () ∧ (t.print text).1 = .ok () ∧
      (s.print text).2.Beside out out' (t.print text).2 := by
  cases h
  simp only [Session.print, Sink.print, Sink.write, Sink.flush, ByteArray.append_assoc, true_and]
  exact .mk ..

theorem kept (out out' : ByteArray) : (Following.beside out out').Kept where
  fresh h := by
    cases h
    rfl
  lookup id name h := by
    cases h
    rfl
  function name h := by
    cases h
    exact (Function.map_rename_none _).symm
  openScope id h := by
    cases h
    exact .mk ..
  define id name b h := by
    cases h
    exact ⟨(unnamed_none _).symm, .mk ..⟩
  reassign id name v h := by
    cases h
    exact ⟨(unnamed_none _).symm, .mk ..⟩
  declare name f h := by
    cases h
    rw [Following.beside, Function.rename_none]
    exact .mk ..
  print line text h _ := ⟨(h.print text).1, (h.print text).2.2⟩

/-- A task has the same answer beside. -/
theorem finishes (h : s.Beside out out' t) {task : Task f} {a : Answer f}
    (ha : Finishes (.ofTask task s) a) :
    ∃ u, a.session.Beside out out' u ∧ Finishes (.ofTask task t) ⟨a.outcome, u⟩ := by
  have hr : (Following.beside out out').related [] s t := h
  obtain ⟨_, u, hu, hend⟩ := (kept out out').finishes (fun text hr => (hr.print text).2.1) ha hr
  rw [Following.outcome_of_none rfl, Following.beside, Task.rename_none] at hend
  exact ⟨u, hu, hend⟩

end Session.Beside

namespace Console

/-- A console takes a line and goes on. -/
inductive Takes : Console → ByteArray → Console → Prop where
  | again {c d : Console} {line : ByteArray} (h : (c.say prompt).respond line = .again d) :
      Takes c line d
  | evaluate {c d : Console} {line : ByteArray} {body : List Stmt} {answer : Answer .line}
      (h : (c.say prompt).respond line = .evaluate body d)
      (ha : Finishes (.ofTask (.line body) d.session) answer) : Takes c line (d.conclude answer)

/-- A console takes lines, one after another. -/
inductive TakesAll : Console → List ByteArray → Console → Prop where
  | nil (c : Console) : TakesAll c [] c
  | cons {c d e : Console} {line : ByteArray} {rest : List ByteArray} (first : Takes c line d)
      (more : TakesAll d rest e) : TakesAll c (line :: rest) e

/-- The dialogue that a console has on lines of input comes to an end. -/
inductive Ends : Console → List ByteArray → Transcript → Prop where
  | quit (c : Console) : Ends c [] (((c.say prompt).say farewell).close 0)
  | stop {c : Console} {line : ByteArray} {rest : List ByteArray} {t : Transcript}
      (h : (c.say prompt).respond line = .stop t) : Ends c (line :: rest) t
  | goOn {c d : Console} {line : ByteArray} {rest : List ByteArray} {t : Transcript}
      (first : Takes c line d) (more : Ends d rest t) : Ends c (line :: rest) t

variable {c d : Console} {line : ByteArray} {lines before rest : List ByteArray} {t : Transcript}

/-- More steps than needed change nothing. -/
theorem converse_mono {fuel more : Nat} (hm : fuel ≤ more)
    (h : c.converse fuel lines = some t) : c.converse more lines = some t := by
  induction lines generalizing c with
  | nil => exact h
  | cons line rest ih =>
    simp only [converse] at h ⊢
    cases hr : (c.say prompt).respond line with
    | stop t => rwa [hr] at h
    | again d =>
      rw [hr] at h
      exact ih h
    | evaluate body d =>
      rw [hr] at h
      dsimp only at h ⊢
      cases ha : d.session.complete fuel (.line body) with
      | none => rw [ha] at h; cases h
      | some answer =>
        rw [ha] at h
        rw [Session.complete_mono hm ha]
        exact ih h

theorem ends_of_converse {fuel : Nat} (h : c.converse fuel lines = some t) : Ends c lines t := by
  induction lines generalizing c with
  | nil =>
    cases h
    exact .quit c
  | cons line rest ih =>
    simp only [converse] at h
    cases hr : (c.say prompt).respond line with
    | stop t =>
      rw [hr] at h
      cases h
      exact .stop hr
    | again d =>
      rw [hr] at h
      exact .goOn (.again hr) (ih h)
    | evaluate body d =>
      rw [hr] at h
      dsimp only at h
      cases ha : d.session.complete fuel (.line body) with
      | none => rw [ha] at h; cases h
      | some answer =>
        rw [ha] at h
        exact .goOn (.evaluate hr (Session.finishes_of_complete ha)) (ih h)

theorem Ends.converse (h : Ends c lines t) : ∃ fuel, c.converse fuel lines = some t := by
  induction h with
  | quit c => exact ⟨0, rfl⟩
  | stop h =>
    refine ⟨0, ?_⟩
    simp only [Console.converse, h]
  | goOn first _ ih =>
    obtain ⟨fuel, ih⟩ := ih
    cases first with
    | again h =>
      refine ⟨fuel, ?_⟩
      simpa only [Console.converse, h] using ih
    | evaluate h ha =>
      obtain ⟨steps, ha⟩ := Session.complete_eq_some_iff.mpr ha
      refine ⟨max fuel steps, ?_⟩
      simp only [Console.converse, h, Session.complete_mono (Nat.le_max_right fuel steps) ha]
      exact converse_mono (Nat.le_max_left fuel steps) ih

theorem converse_eq_some_iff : (∃ fuel, c.converse fuel lines = some t) ↔ Ends c lines t :=
  ⟨fun ⟨_, h⟩ => ends_of_converse h, Ends.converse⟩

theorem TakesAll.ends (h : TakesAll c before d) (hd : Ends d rest t) :
    Ends c (before ++ rest) t := by
  induction h with
  | nil c => exact hd
  | cons first _ ih => exact .goOn first (ih hd)

/-- If no line of the first ones ends the dialogue, the console takes them all. -/
theorem Ends.takesAll (h : Ends c (before ++ rest) t)
    (goOn : ∀ line ∈ before, ∀ (c : Console) t, c.respond line ≠ .stop t) :
    ∃ d, TakesAll c before d ∧ Ends d rest t := by
  induction before generalizing c with
  | nil => exact ⟨c, .nil c, h⟩
  | cons line before ih =>
    cases h with
    | stop h => exact absurd h (goOn line List.mem_cons_self _ _)
    | goOn first more =>
      obtain ⟨d, hall, hd⟩ := ih more fun line hl => goOn line (List.mem_cons_of_mem _ hl)
      exact ⟨d, .cons first hall, hd⟩

/-- Two consoles that differ only in how their output and their error messages began. -/
inductive Beside (out out' : ByteArray) (err err' : String) : Console → Console → Prop where
  | mk {s t : Session} (hs : s.Beside out out' t) (errors : String) :
      Beside out out' err err' ⟨s, err ++ errors⟩ ⟨t, err' ++ errors⟩

end Console

inductive Transcript.Beside (out out' : ByteArray) (err err' : String) :
    Transcript → Transcript → Prop where
  | mk (written : ByteArray) (errors : String) (code : UInt32) :
      Beside out out' err err' ⟨out ++ written, err ++ errors, code⟩
        ⟨out' ++ written, err' ++ errors, code⟩

namespace Console

inductive Reply.Beside (out out' : ByteArray) (err err' : String) : Reply → Reply → Prop where
  | stop {t t' : Transcript} (h : t.Beside out out' err err' t') :
      Beside out out' err err' (.stop t) (.stop t')
  | again {c c' : Console} (h : c.Beside out out' err err' c') :
      Beside out out' err err' (.again c) (.again c')
  | evaluate (body : List Stmt) {c c' : Console} (h : c.Beside out out' err err' c') :
      Beside out out' err err' (.evaluate body c) (.evaluate body c')

variable {out out' : ByteArray} {err err' : String} {c c' d : Console} {line : ByteArray}
  {lines : List ByteArray} {t : Transcript}

namespace Beside

theorem session (h : c.Beside out out' err err' c') : c.session.Beside out out' c'.session := by
  obtain ⟨hs, _⟩ := h
  exact hs

theorem say (h : c.Beside out out' err err' c') (text : String) :
    (c.say text).Beside out out' err err' (c'.say text) := by
  obtain ⟨hs, errors⟩ := h
  exact .mk (hs.write text.toUTF8) errors

theorem sayAll (values : List Value) (h : c.Beside out out' err err' c') :
    (values.foldl (fun c v => c.say (v.text ++ "\n")) c).Beside out out' err err'
      (values.foldl (fun c v => c.say (v.text ++ "\n")) c') := by
  induction values generalizing c c' with
  | nil => exact h
  | cons v values ih => exact ih (h.say _)

theorem complain (h : c.Beside out out' err err' c') (message : String) :
    (c.complain message).Beside out out' err err' (c'.complain message) := by
  obtain ⟨hs, errors⟩ := h
  simp only [Console.complain, String.append_assoc]
  exact .mk hs _

theorem close (h : c.Beside out out' err err' c') (code : UInt32) :
    (c.close code).Beside out out' err err' (c'.close code) := by
  obtain ⟨⟨scopes, functions, written, flushes⟩, errors⟩ := h
  exact .mk ..

theorem respond (h : c.Beside out out' err err' c') (line : ByteArray) :
    (c.respond line).Beside out out' err err' (c'.respond line) := by
  simp only [Console.respond]
  split
  · exact .stop ((h.complain _).close 1)
  · split
    · exact .again h
    · split
      · exact .stop (h.close 0)
      · split
        · exact .again (h.complain _)
        · exact .evaluate _ h

theorem conclude (h : c.Beside out out' err err' c') {s s' : Session} (hs : s.Beside out out' s')
    (outcome : Except RuntimeError (List Value)) :
    (c.conclude ⟨outcome, s⟩).Beside out out' err err' (c'.conclude ⟨outcome, s'⟩) := by
  obtain ⟨_, errors⟩ := h
  have hstart : (⟨s, err ++ errors⟩ : Console).Beside out out' err err' ⟨s', err' ++ errors⟩ :=
    .mk hs errors
  cases outcome with
  | error e => exact hstart.complain e.message
  | ok values => exact hstart.sayAll values

end Beside

theorem Takes.beside (h : Takes c line d) (hc : c.Beside out out' err err' c') :
    ∃ d', d.Beside out out' err err' d' ∧ Takes c' line d' := by
  have hr := (hc.say prompt).respond line
  cases h with
  | again h =>
    rw [h] at hr
    generalize hreply : (c'.say prompt).respond line = reply at hr
    cases hr with
    | again hd => exact ⟨_, hd, .again hreply⟩
  | evaluate h ha =>
    rw [h] at hr
    generalize hreply : (c'.say prompt).respond line = reply at hr
    cases hr with
    | evaluate body hd =>
      obtain ⟨u, hu, ha'⟩ := hd.session.finishes ha
      exact ⟨_, hd.conclude hu _, .evaluate hreply ha'⟩

theorem TakesAll.beside (h : TakesAll c lines d) (hc : c.Beside out out' err err' c') :
    ∃ d', d.Beside out out' err err' d' ∧ TakesAll c' lines d' := by
  induction h generalizing c' with
  | nil c => exact ⟨c', hc, .nil c'⟩
  | cons first _ ih =>
    obtain ⟨d', hd, hfirst⟩ := first.beside hc
    obtain ⟨e', he, hmore⟩ := ih hd
    exact ⟨e', he, .cons hfirst hmore⟩

/-- A dialogue ends alike, whatever was written before. -/
theorem Ends.beside (h : Ends c lines t) (hc : c.Beside out out' err err' c') :
    ∃ t', t.Beside out out' err err' t' ∧ Ends c' lines t' := by
  induction h generalizing c' with
  | quit c => exact ⟨_, ((hc.say prompt).say farewell).close 0, .quit c'⟩
  | @stop _ line _ _ h =>
    have hr := (hc.say prompt).respond line
    rw [h] at hr
    generalize hreply : (c'.say prompt).respond line = reply at hr
    cases hr with
    | stop ht => exact ⟨_, ht, .stop hreply⟩
  | goOn first _ ih =>
    obtain ⟨d', hd, hfirst⟩ := first.beside hc
    obtain ⟨t', ht, hmore⟩ := ih hd
    exact ⟨t', ht, .goOn hfirst hmore⟩

end Console

end Scriptlet
