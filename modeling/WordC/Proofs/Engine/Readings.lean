import WordC.Proofs.Engine.Repetition
import WordC.Proofs.Engine.Tracing
import WordC.Proofs.Machine.Rewinding
import WordC.Proofs.Program.Image

/-!
# Texts with the same tokens

What a compiler leaves behind does not tell where the tokens stood. The words of text and data are
those of the resolved file, and words that it has not written are zero in a cleared machine. So texts
with the same tokens give programs that run alike.
-/

namespace WordC

namespace Machine

variable {m m' : Machine} {layout : Layout}

/-! ## Words that are not in use -/

/-- An intact machine whose text and data are zero behind what is in use. -/
structure Clean (layout : Layout) (m : Machine) : Prop where
  intact : m.IntactWith layout
  text : ∀ address, m.textEnd ≤ address → address < m.layout.text.stop →
    m.memory[address]? = some 0
  data : ∀ address, m.dataEnd ≤ address → address < m.layout.data.stop →
    m.memory[address]? = some 0

theorem clean_blank {limit : Option Nat} {host : Host} (h : layout.Ordered) :
    (blank layout limit host).Clean layout := by
  have hzero : ∀ address < layout.data.stop,
      (blank layout limit host).memory[address]? = some 0 := by
    intro address hstop
    exact Array.getElem?_replicate.trans (if_pos (Nat.lt_trans hstop h.data_lt_poolSize))
  exact ⟨⟨intact_blank h, rfl⟩,
    fun address _ hstop => hzero address (Nat.lt_of_lt_of_le hstop h.text_le_data),
    fun address _ hstop => hzero address hstop⟩

namespace Clean

/-- Text in use may be written. -/
theorem write (h : m.Clean layout) (hintact : m'.IntactWith layout) {address : Nat} {word : Word}
    (hmemory : m'.memory = m.memory.setIfInBounds address word) (haddress : address < m'.textEnd)
    (htextEnd : m.textEnd ≤ m'.textEnd) (hdataEnd : m'.dataEnd = m.dataEnd) :
    m'.Clean layout := by
  have hlayout : m'.layout = m.layout := hintact.layout.trans h.intact.layout.symm
  have hstop := hintact.intact.sound.textStop
  have hdata := h.intact.intact.sound.ordered.data
  have hstart := h.intact.intact.sound.dataStart
  refine ⟨hintact, fun other hother hlast => ?_, fun other hother hlast => ?_⟩
  · rw [hmemory, Array.getElem?_setIfInBounds_ne (by omega)]
    exact h.text other (by omega) (hlayout ▸ hlast)
  · rw [hlayout] at hstop hlast
    rw [hmemory, Array.getElem?_setIfInBounds_ne (by omega)]
    exact h.data other (by omega) hlast

theorem emitWord (h : m.Clean layout) (word : Word) :
    (m.after (Machine.emitWord word)).Clean layout := by
  have hintact := h.intact.emitWord word
  rcases after_emitWord m word with hfull | ⟨-, hwritten⟩
  · rwa [hfull]
  · rw [hwritten] at hintact ⊢
    exact h.write hintact rfl (Nat.lt_succ_self _) (Nat.le_succ _) rfl

theorem patch (h : m.Clean layout) (address : Nat) (word : Word) :
    (m.after (Machine.patch address word)).Clean layout := by
  have hintact := h.intact.patch address word
  rcases after_patch m address word with hsame | ⟨hinside, hwritten⟩
  · rwa [hsame]
  · rw [hwritten] at hintact ⊢
    exact h.write hintact rfl hinside.2 (Nat.le_refl _) rfl

theorem allocate (h : m.Clean layout) (words : List Word) :
    (m.after (Machine.allocate words)).Clean layout := by
  have hintact := h.intact.allocate words
  rcases after_allocate m words with hfull | ⟨-, hwritten⟩
  · rwa [hfull]
  · rw [hwritten] at hintact ⊢
    have hdata := h.intact.intact.sound.ordered.data
    have hstart := h.intact.intact.sound.dataStart
    refine ⟨hintact, fun address hfirst hlast => ?_, fun address hfirst hlast => ?_⟩
    · simp only at hfirst hlast ⊢
      rw [Memory.getElem?_copy, if_neg (by omega)]
      exact h.text address hfirst hlast
    · simp only at hfirst hlast ⊢
      rw [Memory.getElem?_copy, if_neg (by omega)]
      exact h.data address (by omega) hlast

theorem report (h : m.Clean layout) (event : Event) : (m.report event).Clean layout :=
  ⟨h.intact.report event, h.text, h.data⟩

theorem compile (h : m.Clean layout) (source : String) :
    (m.after (WordC.compile source)).Clean layout :=
  after_compile (fun word _ hm => hm.emitWord word) (fun address word _ hm => hm.patch address word)
    (fun words _ hm => hm.allocate words) (fun event _ hm => hm.report event) h source

end Clean

/-- The compiler asks for nothing and prints nothing. -/
theorem host_compile (m : Machine) (source : String) :
    (m.after (WordC.compile source)).host.answers = m.host.answers ∧
      (m.after (WordC.compile source)).host.sink = m.host.sink :=
  ⟨@eq_after_compile _ (fun m => m.host.answers) (fun _ _ _ _ _ _ => rfl) (fun _ _ => rfl) m source,
    sink_compile m source⟩

end Machine

namespace Compiler

open Machine (Clean IntactWith)
open Syntax (Outline)

variable {source source' : String} {machine m n : Machine} {program program' : Program}
  {file : Syntax.File} {outline : Outline} {hsound : machine.Sound} {layout : Layout}

/-! ## What a reading determines -/

/-- The words that data is restored with. -/
theorem Leaves.dataImage (hleaves : Leaves machine hsound source outline program m)
    (hintact : machine.IntactWith layout) (hunused : machine.dataEnd = machine.layout.data.start)
    (hok : compile source machine = .ok program m) : m.dataImage = outline.data := by
  have hbacked := hintact.backed.compile source
  rw [Machine.after_of_ok hok] at hbacked
  have hlayout := hleaves.layout
  have hlength := hbacked.intact.intact.image
  unfold Machine.dataLength at hlength
  rw [hleaves.dataEnd, hlayout, hunused, Nat.add_sub_cancel_left] at hlength
  refine List.ext_getElem?' fun index hindex => ?_
  rw [hlength, Nat.max_self] at hindex
  obtain ⟨frame, compiler, hfits⟩ := hleaves.fits
  have hword := hfits.data index outline.data[index] (List.getElem?_eq_getElem hindex)
  have himage := hbacked.data (machine.dataEnd + index) (Nat.le_add_right _ _)
    (by rw [hleaves.dataEnd]; omega)
  rw [hlayout, hunused, Nat.add_sub_cancel_left] at himage
  rw [List.getElem?_eq_getElem hindex, ← himage, ← hunused]
  exact hword

/-- What has been compiled into an empty machine is the same for all texts with one reading. -/
theorem keeps_of_reads {limit : Option Nat} {host : Host} (hordered : layout.Ordered)
    (hreads : Reads source (.blank layout limit host) file outline)
    (hreads' : Reads source' (.blank layout limit host) file outline)
    (hok : compile source (.blank layout limit host) = .ok program m)
    (hok' : compile source' (.blank layout limit host) = .ok program' n) :
    program'.entry = program.entry ∧ m.Keeps (m.layout.text.stop ≤ ·) n ∧
      n.words { start := m.dataEnd, stop := m.layout.data.stop } =
        m.words { start := m.dataEnd, stop := m.layout.data.stop } := by
  have hclean := @Machine.clean_blank layout limit host hordered
  have hsound := hclean.intact.intact.sound
  have hleaves := leaves_of_reads hsound hreads hok
  have hleaves' := leaves_of_reads hsound hreads' hok'
  have hm := hclean.compile source
  have hn := hclean.compile source'
  have hlimit := Machine.cycleLimit_compile (.blank layout limit host) source
  have hlimit' := Machine.cycleLimit_compile (.blank layout limit host) source'
  rw [Machine.after_of_ok hok] at hm hlimit
  rw [Machine.after_of_ok hok'] at hn hlimit'
  have hlayout : n.layout = m.layout := hleaves'.layout.trans hleaves.layout.symm
  have hentry : program'.entry = program.entry := hleaves'.entry.trans hleaves.entry.symm
  have htextEnd : n.textEnd = m.textEnd := by
    rw [hleaves'.textEnd, hleaves.textEnd, hentry]
  have hdataEnd : n.dataEnd = m.dataEnd := hleaves'.dataEnd.trans hleaves.dataEnd.symm
  have hsize : n.memory.size = m.memory.size := by
    rw [hleaves'.sound.size, hleaves.sound.size, hlayout]
  have hwords := hleaves'.words hreads'.awaiting
  rw [hentry, htextEnd, ← hleaves.words hreads.awaiting] at hwords
  refine ⟨hentry, ⟨hlayout, hlimit'.trans hlimit.symm, htextEnd, hdataEnd, ?_, hsize, ?_⟩, ?_⟩
  · rw [hleaves'.dataImage hclean.intact rfl hok', hleaves.dataImage hclean.intact rfl hok]
  · intro address hbefore
    rcases Nat.lt_or_ge address m.textEnd with hused | hfree
    · have hstart : program.entry = 0 := hleaves.entry.trans hordered.textStart
      exact Engine.getElem?_of_words hwords hsize (hstart ▸ Nat.zero_le _) hused
    · rw [hm.text address hfree (Nat.lt_of_not_le hbefore)]
      exact hn.text address (htextEnd ▸ hfree) (hlayout ▸ Nat.lt_of_not_le hbefore)
  · refine List.ext_getElem? fun index => ?_
    rw [Machine.getElem?_words, Machine.getElem?_words]
    split
    · next hstop =>
        rw [hm.data _ (Nat.le_add_right _ _) hstop]
        exact hn.data _ (hdataEnd ▸ Nat.le_add_right _ _) (hlayout ▸ hstop)
    · rfl

end Compiler

namespace Engine

open Compiler (Reads)
open Machine (IntactWith Peers)
open Syntax (Outline)

variable {source source' : String} {m n n' : Machine} {program program' : Program}
  {file : Syntax.File} {outline : Outline} {layout : Layout}

/-- Programs with the same reading are run alike on the machine that has compiled them. -/
theorem alike_run_of_reads (h : m.IntactWith layout)
    (hreads : Reads source m.clear file outline) (hreads' : Reads source' m.clear file outline)
    (hok : Engine.compile source m = .ok program n)
    (hok' : Engine.compile source' m = .ok program' n') (tracing : Bool) (steps : Nat) :
    Alike (Peers m.host.sink.written m.host.sink.written)
      (Engine.run program tracing steps n) (Engine.run program' tracing steps n') := by
  have hintact := Engine.intactWith_compile h source
  rw [Machine.after_of_ok hok] at hintact
  change WordC.compile source m.clear = _ at hok
  change WordC.compile source' m.clear = _ at hok'
  obtain ⟨hanswers, hsink⟩ := Machine.host_compile m.clear source
  obtain ⟨hanswers', hsink'⟩ := Machine.host_compile m.clear source'
  rw [Machine.after_of_ok hok] at hanswers hsink
  rw [Machine.after_of_ok hok'] at hanswers' hsink'
  rw [Machine.clear_eq_blank h.intact] at hreads hreads' hok hok'
  obtain ⟨hentry, hkeeps, hunused⟩ := Compiler.keeps_of_reads h.intact.sound.ordered hreads hreads'
    hok hok'
  have hechoes : n.host.Echoes m.host.sink.written m.host.sink.written n'.host :=
    { answers := hanswers'.trans hanswers.symm
      mode := congrArg Sink.mode (hsink'.trans hsink.symm)
      output := ⟨#[], by rw [hsink]; exact Array.append_empty.symm,
        by rw [hsink']; exact Array.append_empty.symm⟩ }
  have hpeers : Peers m.host.sink.written m.host.sink.written n.reset n'.reset :=
    ⟨n'.host, reset_eq hintact.intact hkeeps hunused, hechoes⟩
  change Alike _ (Machine.runFrom program.entry tracing steps n.reset)
    (Machine.runFrom program'.entry tracing steps n'.reset)
  rw [hentry]
  exact Machine.alike_runFrom hpeers program.entry tracing tracing steps

end Engine

end WordC
