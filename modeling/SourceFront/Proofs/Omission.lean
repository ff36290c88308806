import Mathlib.Data.List.Sort
import SourceFront.Proofs.Blanking
import SourceFront.Proofs.Concatenation
import SourceFront.Proofs.Shedding

/-!
Semicolons that are left out. In a source without problems, a semicolon may end a statement in
front of the end of its block, or of a keyword that begins the next statement. Where such
semicolons are replaced by blanks, each costs its statement and one problem of the token behind
it, and nothing else.
-/

namespace SourceFront

open Phrase

/-- Whether the statement ends with the token, which is a semicolon. -/
def Stmt.endsWith (stmt : Stmt Span) (token : Token) : Bool :=
  stmt.isTerminated && stmt.note.stop = token.span.stop

theorem Stmt.endsWith_iff {stmt : Stmt Span} {token : Token} : stmt.endsWith token = true ↔
    stmt.isTerminated = true ∧ stmt.note.stop = token.span.stop := by
  simp [endsWith]

/-- Semicolons of a source, each of which ends a statement that stands in a block, in front of the
end of the block or of a keyword that begins a statement. -/
structure Omissible (source : String) (fileId : Nat) (cut : List Token) : Prop where
  sublist : cut.Sublist (bodyTokens source fileId)
  semicolon : ∀ token ∈ cut, token.kind = .symbol .semicolon
  ends : ∀ token ∈ cut, ∃ part ∈ (analyse source fileId).module.parts, ∃ stmt ∈ part.stmts,
    stmt.endsWith token = true
  followed : ∀ token ∈ cut, ∃ next, [token, next] <:+: bodyTokens source fileId ∧
    next.resumes = true

theorem Omissible.head_behind {source : String} {fileId : Nat} {cut front behind : List Token}
    {token : Token} (h : Omissible source fileId cut)
    (hsplit : bodyTokens source fileId = front ++ token :: behind) (hmem : token ∈ cut) :
    ∃ next ∈ behind.head?, next.resumes = true := by
  obtain ⟨next, ⟨before, rest, hpair⟩, hresumes⟩ := h.followed token hmem
  replace hpair : before ++ token :: (next :: rest) = bodyTokens source fileId := by
    rw [← hpair, List.append_assoc]
    rfl
  have hnodup := bodyTokens_nodup source fileId
  rw [← hpair, List.nodup_middle, List.nodup_cons, List.mem_append, not_or] at hnodup
  obtain ⟨-, -, rfl⟩ := (List.append_cons_inj_of_notMem hnodup.1.1 hnodup.1.2).mp
    (hpair.trans hsplit)
  exact ⟨next, rfl, hresumes⟩

namespace Patch

variable {patches : List Patch}

/-- Without the semicolons that are cut out, the tokens are those of what is left. -/
theorem tokens_bits {cut : List Token} (hnodup : (tokens patches).Nodup)
    (hcut : ∀ token ∈ tokens patches, token ∈ cut ↔ token ∈ semicolons patches) :
    Bit.tokens true (bits patches) =
      (tokens patches).filter (fun token => !cut.contains token) := by
  induction patches with
  | nil => rfl
  | cons patch patches ih =>
      have hbehind := (semicolons_sublist patches).subset
      cases patch with
      | kept token =>
          obtain ⟨hfirst, hrest⟩ := List.nodup_cons.mp hnodup
          have hkept : token ∉ cut := fun hmem =>
            hfirst (hbehind ((hcut token List.mem_cons_self).mp hmem))
          have hsame := ih hrest fun other hmem => hcut other (List.mem_cons_of_mem token hmem)
          rw [show tokens (.kept token :: patches) = token :: tokens patches from rfl,
            List.filter_cons_of_pos (by simpa using hkept), ← hsame]
          rfl
      | cut run semicolon =>
          rw [tokens_cut] at hnodup hcut ⊢
          obtain ⟨-, hnodup', hrun⟩ := List.nodup_append.mp hnodup
          obtain ⟨hfirst, hrest⟩ := List.nodup_cons.mp hnodup'
          have hcuts : semicolons (.cut run semicolon :: patches) ⊆ semicolon :: tokens patches :=
            List.cons_subset_cons semicolon hbehind
          have hkept : ∀ token ∈ run, token ∉ cut := fun token hmem hmem' =>
            hrun token hmem token
              (hcuts ((hcut token (List.mem_append_left _ hmem)).mp hmem')) rfl
          have hdropped : semicolon ∈ cut := (hcut semicolon (by simp)).mpr List.mem_cons_self
          have hsame := ih hrest fun token hmem => by
            rw [hcut token (by simp [hmem])]
            exact List.mem_cons.trans (or_iff_right fun heq => hfirst (heq ▸ hmem))
          rw [List.filter_append, List.filter_eq_self.mpr (by simpa using hkept),
            List.filter_cons_of_neg (by simpa using hdropped), ← hsame]
          rfl

theorem head_bits {next : Token} (hnext : next ∈ (tokens patches).head?)
    (hkind : next.kind ≠ .symbol .semicolon)
    (hsemicolon : ∀ token ∈ semicolons patches, token.kind = .symbol .semicolon) :
    next ∈ (Bit.tokens true (bits patches)).head? := by
  cases patches with
  | nil => cases hnext
  | cons patch patches =>
      cases patch with
      | kept token => exact hnext
      | cut run semicolon =>
          cases run with
          | nil =>
              obtain rfl := Option.some.inj hnext
              exact absurd (hsemicolon _ List.mem_cons_self) hkind
          | cons first run => exact hnext

/-- Where a token at which a block goes on stands behind each of the semicolons, a statement that
is not terminated stands in front of it, and has its problem. -/
theorem followed_bits {whole before : List Token} (hwhole : whole = before ++ tokens patches)
    (hsemicolon : ∀ token ∈ semicolons patches, token.kind = .symbol .semicolon)
    (hnext : ∀ front token behind, whole = front ++ token :: behind →
      token ∈ semicolons patches → ∃ next ∈ behind.head?, next.resumes = true) :
    Bit.Followed Straying.unterminated.follows (bits patches) [] ∧
      ∀ found, Located (Bit.sites Straying.unterminated.site true (bits patches) []) found →
        List.Forall₂ (fun token problem => ∃ next, [token, next] <:+: whole ∧
          problem.span = next.span) (semicolons patches) found := by
  induction patches generalizing before with
  | nil =>
      refine ⟨trivial, fun found hfound => ?_⟩
      cases hfound
      exact .nil
  | cons patch patches ih =>
      cases patch with
      | kept token =>
          exact ih (hwhole.trans (List.append_cons before token _)) hsemicolon hnext
      | cut run semicolon =>
          have hcut : whole = (before ++ run) ++ semicolon :: tokens patches := by
            rw [hwhole, tokens_cut, List.append_assoc]
          obtain ⟨next, hhead, hresumes⟩ := hnext _ _ _ hcut List.mem_cons_self
          have hsemicolon' : ∀ token ∈ semicolons patches, token.kind = .symbol .semicolon :=
            fun token hmem => hsemicolon token (List.mem_cons_of_mem semicolon hmem)
          obtain ⟨hfollowed, hfound⟩ := ih (hcut.trans (List.append_cons _ _ _)) hsemicolon'
            fun front token behind hsplit hmem =>
              hnext front token behind hsplit (List.mem_cons_of_mem semicolon hmem)
          obtain ⟨behind, hbehind⟩ := List.head?_eq_some_iff.mp hhead
          have hbits := head_bits hhead (Token.ends_of_resumes hresumes).2.1 hsemicolon'
          obtain ⟨rest, hrest⟩ := List.head?_eq_some_iff.mp hbits
          rw [bits_cut, Bit.Followed, Bit.sites, hrest]
          refine ⟨⟨⟨next, rfl, hresumes⟩, hfollowed⟩, fun found hlocated => ?_⟩
          cases hlocated with
          | @cons _ problem _ found hproblem hlater =>
              obtain ⟨token, hmem, hspan⟩ := hproblem
              obtain rfl : token = next := List.mem_singleton.mp hmem
              have hpair : [semicolon, token] <:+: whole :=
                ⟨before ++ run, behind, by simp [hcut, hbehind]⟩
              exact .cons ⟨token, hpair, hspan⟩ (hfound found hlater)

end Patch

section

variable {source : String} {fileId : Nat}
  (hclean : (analyse source fileId).diagnostics.isEmpty = true)
include hclean

theorem analyse_stopping : lexicalProblems source fileId = [] ∧
    (analyse source fileId).module.phrase.Spelled .stopping (bodyTokens source fileId) := by
  obtain ⟨⟨module, after⟩, hread⟩ : ∃ result,
      (Reading.ofSource source fileId).readModule = result := ⟨_, rfl⟩
  rw [analyse_eq hread] at hclean ⊢
  obtain ⟨hlexical, hsyntax⟩ :=
    Reading.problems_eq_nil.mp (Diagnostics.isEmpty_ofProblems.mp hclean)
  replace hlexical := (readModule_lexical hread).symm.trans hlexical
  have hderives : module.phrase.Derives False (bodyTokens source fileId) :=
    (ofSource_readModule hread fun hne => hne hsyntax).1
  have hordered := (Token.Placed.of_follow (bodyTokens_follow source fileId)).ordered
  refine ⟨hlexical, hderives.imp (fun _ _ _ htoken => htoken) ?_ ?_⟩
  · intro note part hpart hcovers
    obtain ⟨first, last, -, hlast, rfl⟩ := hcovers (hordered.sublist hpart.sublist)
    exact ⟨last, hlast, rfl⟩
  · rintro part hpart (hnil | hfalse | ⟨token, hmem, hkind⟩)
    · exact hnil
    · exact hfalse.elim
    · exact absurd (hkind ▸ bodyTokens_written hlexical token (hpart.subset hmem))
        not_written_invalid

theorem analyse_nesting_le : (analyse source fileId).module.phrase.nesting ≤ Level.limit := by
  obtain ⟨items, after, hitems⟩ := Rule.exists_items (Reading.ofSource source fileId).state
  have hquiet := (analyse_quiet hclean hitems).2
  have hspelled := (analyse_stopping hclean).2.plain_of_stopping
  obtain ⟨hahead, -, hproblems⟩ := ofSource_state source fileId
  have hbetween := between_of_spelled hspelled (hahead.trans (List.append_nil _).symm)
    ⟨hproblems, hahead ▸ hspelled.kind_ne_invalid⟩
  have hend : ((Reading.ofSource source fileId).state.skip
      (bodyTokens source fileId).length).current.kind = .eof := by
    rw [State.current, State.skip_ahead, hahead, List.drop_length]
    rfl
  have hgives := Rule.module_gives (Level.allowing_recognises Level.limit)
    (Level.allowing_framed _) hbetween hend
  by_contra hdeep
  have hrefused := hgives.refused hdeep
  rw [← Level.outermost, hitems] at hrefused
  obtain ⟨-, problem, later, hfound, -⟩ := hrefused
  rw [hquiet] at hfound
  cases hfound

end

theorem Token.eq_of_stops {tokens part other : List Token}
    (hordered : tokens.Pairwise fun a b => a.span.stop < b.span.stop)
    (hpart : part.Sublist tokens) (hother : other.Sublist tokens)
    (h : ∀ stop, stop ∈ part.map (·.span.stop) ↔ stop ∈ other.map (·.span.stop)) :
    part = other := by
  have hnodup : (tokens.map (·.span.stop)).Nodup :=
    List.pairwise_map.mpr (hordered.imp Nat.ne_of_lt)
  have hmem {a b : List Token} (ha : a.Sublist tokens) (hb : b.Sublist tokens)
      (h : ∀ stop ∈ a.map (·.span.stop), stop ∈ b.map (·.span.stop)) : a ⊆ b := by
    intro token hmem
    obtain ⟨same, hsame, hstop⟩ := List.mem_map.mp (h _ (List.mem_map_of_mem hmem))
    rwa [← List.inj_on_of_nodup_map hnodup (hb.subset hsame) (ha.subset hmem) hstop]
  have : Std.Irrefl fun a b : Token => a.span.stop < b.span.stop := ⟨fun a => Nat.lt_irrefl _⟩
  have : Std.Antisymm fun a b : Token => a.span.stop < b.span.stop :=
    ⟨fun a b hlt hlt' => absurd hlt (Nat.lt_asymm hlt')⟩
  exact List.Subset.antisymm_of_pairwise (hordered.sublist hpart) (hordered.sublist hother)
    (hmem hpart hother fun stop => (h stop).mp) (hmem hother hpart fun stop => (h stop).mpr)

/-- The tokens of the source with the semicolons cut out, by the statements that they end. -/
theorem Omissible.exists_patches {source : String} {fileId : Nat} {cut : List Token}
    (hcut : Omissible source fileId cut)
    (hclean : (analyse source fileId).diagnostics.isEmpty = true) :
    ∃ patches, Patch.tokens patches = bodyTokens source fileId ∧
      Patch.semicolons patches = cut ∧
      (concat (((analyse source fileId).module.without fun stmt =>
        cut.any stmt.endsWith).items.map Item.phrase)).Strewn Unterminated Level.limit
        (Patch.bits patches) := by
  have hdrop : Stmt.DropsTerminated fun stmt => cut.any stmt.endsWith := by
    intro stmt hany
    obtain ⟨token, -, hends⟩ := List.any_eq_true.mp hany
    exact (Stmt.endsWith_iff.mp hends).1
  have hspelled := spelled_concat_of_gapped (fun _ hgap => hgap) (analyse_stopping hclean).2
  have hfits := analyse_nesting_le hclean
  rw [Module.phrase, nesting_gapped_le, ← nesting_concat_le] at hfits
  obtain ⟨patches, htokens, hstrewn, hstops⟩ :=
    (Item.list_sheds hdrop (analyse source fileId).module.items).cut hspelled hfits
  refine ⟨patches, htokens, ?_, hstrewn⟩
  have hordered : (bodyTokens source fileId).Pairwise fun a b => a.span.stop < b.span.stop := by
    have hfollow := bodyTokens_follow source fileId
    refine hfollow.pairwise.imp_of_mem fun {a b} _ hb hle => ?_
    exact Nat.lt_of_le_of_lt hle (hfollow.of_mem hb).2.1
  refine Token.eq_of_stops hordered (htokens ▸ Patch.semicolons_sublist patches) hcut.sublist
    fun stop => (hstops stop).trans ⟨fun hmem => ?_, fun hmem => ?_⟩
  · obtain ⟨stmt, hstmt, rfl⟩ := List.mem_map.mp hmem
    obtain ⟨token, htoken, hends⟩ := List.any_eq_true.mp (List.mem_filter.mp hstmt).2
    exact List.mem_map.mpr ⟨token, htoken, (Stmt.endsWith_iff.mp hends).2.symm⟩
  · obtain ⟨token, htoken, rfl⟩ := List.mem_map.mp hmem
    obtain ⟨part, hpart, stmt, hstmt, hends⟩ := hcut.ends token htoken
    refine List.mem_map.mpr ⟨stmt, List.mem_filter.mpr ⟨?_, ?_⟩, (Stmt.endsWith_iff.mp hends).2⟩
    · exact List.mem_flatMap.mpr ⟨part, hpart, hstmt⟩
    · exact List.any_eq_true.mpr ⟨token, htoken, hends⟩

/-- Where semicolons that may be left out are replaced by blanks, each of them costs one problem, of
the token behind it, and the statement that it ends. -/
theorem analyse_omitted {source : String} {fileId : Nat} {cut : List Token}
    (hclean : (analyse source fileId).diagnostics.isEmpty = true)
    (hcut : Omissible source fileId cut) :
    let after := analyse (blanking source cut) fileId
    after.diagnostics.size = cut.length ∧
      List.Forall₂ (fun token diagnostic => ∃ next, [token, next] <:+: bodyTokens source fileId ∧
        diagnostic.span = next.span) cut after.diagnostics.toList ∧
      after.module.shape =
        ((analyse source fileId).module.without fun stmt => cut.any stmt.endsWith).shape := by
  intro after
  obtain ⟨patches, htokens, hsemicolons, hstrewn⟩ := hcut.exists_patches hclean
  obtain ⟨hbody, hquiet⟩ := tokens_blanking (analyse_stopping hclean).1 hcut.sublist.subset
    hcut.semicolon
  have hnodup := bodyTokens_nodup source fileId
  have hbits : bodyTokens (blanking source cut) fileId = Bit.tokens true (Patch.bits patches) := by
    rw [hbody, ← htokens, Patch.tokens_bits (htokens ▸ hnodup) fun token _ => by rw [hsemicolons]]
  obtain ⟨hfollowed, hlocated⟩ := Patch.followed_bits
    (show bodyTokens source fileId = [] ++ Patch.tokens patches from htokens.symm)
    (hsemicolons ▸ hcut.semicolon) fun front token behind hsplit hmem =>
      hcut.head_behind hsplit (hsemicolons ▸ hmem)
  have hsteady : Straying.unterminated.steady
      (Reading.ofSource (blanking source cut) fileId).state :=
    ⟨(ofSource_orderly _ _).ordered, by simp [(ofSource_state (blanking source cut) fileId).2.2]⟩
  obtain ⟨found, hfound, hpairwise, -, hshapes, hdiagnostics⟩ :=
    Module.weathers hstrewn hbits hfollowed hsteady
  rw [hquiet, List.nil_append, SourceOrder.sort_of_pairwise hpairwise] at hdiagnostics
  have hcosts := hlocated found hfound
  rw [hsemicolons] at hcosts
  refine ⟨?_, ?_, ?_⟩
  · rw [Diagnostics.size, hdiagnostics, List.length_map, hcosts.length_eq]
  · rw [hdiagnostics, List.forall₂_map_right_iff]
    exact hcosts
  · simp only [Module.shape, Module.map, after, hshapes]

/-- Semicolons of statements that stand in one another and behind one another. -/
theorem analyse_omitted_nested :
    let source := "fn f() \x7b loop \x7b a = 1; break; \x7d return; let x = 2; \x7d"
    let cut := (bodyTokens source 0).filter (·.kind = .symbol .semicolon)
    let after := analyse (blanking source cut) 0
    (analyse source 0).diagnostics.isEmpty = true ∧ Omissible source 0 cut ∧
      after.diagnostics.size = cut.length ∧
      List.Forall₂ (fun token diagnostic => ∃ next, [token, next] <:+: bodyTokens source 0 ∧
        diagnostic.span = next.span) cut after.diagnostics.toList ∧
      after.module.shape =
        ((analyse source 0).module.without fun stmt => cut.any stmt.endsWith).shape := by
  intro source cut after
  have hclean : (analyse source 0).diagnostics.isEmpty = true := by decide +kernel
  have hends : ∀ token ∈ cut, ∃ part ∈ (analyse source 0).module.parts, ∃ stmt ∈ part.stmts,
      stmt.endsWith token = true := by decide +kernel
  have hfollowed : ∀ token ∈ cut, ∃ next ∈ bodyTokens source 0,
      [token, next] <:+: bodyTokens source 0 ∧ next.resumes = true := by decide +kernel
  have hcut : Omissible source 0 cut := by
    refine ⟨List.filter_sublist, ?_, hends, fun token hmem => ?_⟩
    · exact fun token hmem => of_decide_eq_true (List.mem_filter.mp hmem).2
    · obtain ⟨next, -, hnext⟩ := hfollowed token hmem
      exact ⟨next, hnext⟩
  exact ⟨hclean, hcut, analyse_omitted hclean hcut⟩

end SourceFront
