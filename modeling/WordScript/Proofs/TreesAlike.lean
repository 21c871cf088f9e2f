import WordScript.Proofs.Leaves
import WordScript.Proofs.ScanAlike

/-! Trees of tokens that are alike.

The grammar looks at kinds only. Tokens of the same kinds and texts are read into trees of the same
form, whose leaves have the same texts. -/
namespace WordScript

mutual

/-- Trees of one form whose leaves are related. -/
inductive Node.Alike (R : Token → Token → Prop) : Node → Node → Prop
  | leaf {t t' : Token} (same : R t t') (text : t.kind.isLayout = false) :
      Node.Alike R (.leaf t) (.leaf t')
  | branch {name : String} {ns ns' : List Node} (parts : Node.AlikeAll R ns ns') :
      Node.Alike R (.branch name ns) (.branch name ns')

inductive Node.AlikeAll (R : Token → Token → Prop) : List Node → List Node → Prop
  | nil : Node.AlikeAll R [] []
  | cons {n n' : Node} {ns ns' : List Node} (first : Node.Alike R n n')
      (others : Node.AlikeAll R ns ns') : Node.AlikeAll R (n :: ns) (n' :: ns')

end

namespace Node

variable {R : Token → Token → Prop}

theorem AlikeAll.append (hm : AlikeAll R ms ms') (hn : AlikeAll R ns ns') :
    AlikeAll R (ms ++ ns) (ms' ++ ns') := by
  induction ms generalizing ms' with
  | nil =>
    cases hm
    exact hn
  | cons m ms ih =>
    cases hm with
    | cons first others => exact .cons first (ih others)

theorem AlikeAll.split (h : AlikeAll R (ms ++ ns) ks) :
    ∃ ms' ns', ks = ms' ++ ns' ∧ AlikeAll R ms ms' ∧ AlikeAll R ns ns' := by
  induction ms generalizing ks with
  | nil => exact ⟨[], ks, rfl, .nil, h⟩
  | cons m ms ih =>
    rcases h with _ | ⟨first, others⟩
    obtain ⟨ms', ns', rfl, front, back⟩ := ih others
    exact ⟨_ :: ms', ns', rfl, .cons first front, back⟩

end Node

namespace Grammar

open Node (Alike AlikeAll)
open Deriv (leftGrouped callGrouped shape)

variable {R : Token → Token → Prop}

theorem leftGrouped_alike {ns ns' : List Node} (hl : Alike R lhs lhs') (h : AlikeAll R ns ns') :
    Alike R (leftGrouped lhs ns) (leftGrouped lhs' ns') := by
  rcases h with _ | ⟨op, _ | ⟨rhs, rest⟩⟩
  · exact hl
  · exact hl
  · rw [leftGrouped, leftGrouped]
    exact leftGrouped_alike (.branch (.cons hl (.cons op (.cons rhs .nil)))) rest
termination_by ns.length

theorem callGrouped_alike (hf : Alike R f f') (h : AlikeAll R ns ns') :
    Alike R (callGrouped f ns) (callGrouped f' ns') := by
  induction ns generalizing f f' ns' with
  | nil =>
    cases h
    exact hf
  | cons n ns ih =>
    cases h with
    | @cons _ n' _ ns' first others =>
      have call : Alike R (.branch "CallExpression" [f, n]) (.branch "CallExpression" [f', n']) :=
        .branch (.cons hf (.cons first .nil))
      have others := ih call others
      exact others

theorem shape_alike (kinds : ∀ t t', R t t' → t.kind = t'.kind) (s : Symbol) (h : AlikeAll R ns ns') :
    AlikeAll R (shape s ns) (shape s ns') := by
  have single {name : String} {ms ms' : List Node} (h : AlikeAll R ms ms') :
      AlikeAll R [.branch name ms] [.branch name ms'] := .cons (.branch h) .nil
  cases s with
  | file | typeDef | paramList | body | ifStmt | whileStmt | argList => exact single h
  | orExpr | andExpr | comparison | arithExpr | term | power =>
    cases h with
    | nil => exact .nil
    | cons first others => exact .cons (leftGrouped_alike first others) .nil
  | primary =>
    cases h with
    | nil => exact .nil
    | cons first others => exact .cons (callGrouped_alike first others) .nil
  | simpleStmt =>
    cases h with
    | nil => exact .nil
    | cons first others =>
      cases first with
      | leaf same text =>
        simp only [shape, kinds _ _ same]
        exact single (.cons (.leaf same text) others)
      | branch parts => exact .cons (.branch parts) others
  | exprOrAssignStmt =>
    rcases h with _ | ⟨first, _ | ⟨second, others⟩⟩
    · exact single .nil
    · exact single (.cons first .nil)
    · exact single (.cons first (.cons second others))
  | notExpr | factor =>
    rcases h with _ | ⟨op, _ | ⟨e, _ | ⟨third, others⟩⟩⟩
    · exact .nil
    · exact .cons op .nil
    · exact single (.cons op (.cons e .nil))
    · exact .cons op (.cons e (.cons third others))
  | atom =>
    rcases h with _ | ⟨a, _ | ⟨b, _ | ⟨c, _ | ⟨d, others⟩⟩⟩⟩
    · exact .nil
    · exact .cons a .nil
    · exact .cons a (.cons b .nil)
    · exact single (.cons a (.cons b (.cons c .nil)))
    · exact .cons a (.cons b (.cons c (.cons d others)))
  | funcDef =>
    rcases h with _ | ⟨a, _ | ⟨b, _ | ⟨c, _ | ⟨d, _ | ⟨e, _ | ⟨f, _ | ⟨g, others⟩⟩⟩⟩⟩⟩⟩
    · exact single .nil
    · exact single (.cons a .nil)
    · exact single (.cons a (.cons b .nil))
    · exact single (.cons a (.cons b (.cons c .nil)))
    · exact single (.cons a (.cons b (.cons c (.cons d .nil))))
    · exact single (.cons a (.cons b (.cons c (.cons d (.cons e .nil)))))
    · exact single (.cons a (.cons b (.cons c (.cons (.branch (.cons d (.cons e .nil)))
        (.cons f .nil)))))
    · exact single (.cons a (.cons b (.cons c (.cons d (.cons e (.cons f (.cons g others)))))))
  | _ => exact h

theorem forall₂_split (h : List.Forall₂ R (ts ++ us) vs) :
    ∃ ts' us', vs = ts' ++ us' ∧ List.Forall₂ R ts ts' ∧ List.Forall₂ R us us' := by
  induction ts generalizing vs with
  | nil => exact ⟨[], vs, rfl, .nil, h⟩
  | cons t ts ih =>
    obtain ⟨t', vs', head, tail, rfl⟩ := List.forall₂_cons_left_iff.1 h
    obtain ⟨ts', us', rfl, front, back⟩ := ih tail
    exact ⟨t' :: ts', us', rfl, .cons head front, back⟩

theorem Derives.alike (h : Derives g e d) (kinds : ∀ t t', R t t' → t.kind = t'.kind)
    (same : List.Forall₂ R d.yield ts) :
    ∃ d', Derives g e d' ∧ d'.yield = ts ∧ AlikeAll R d.nodes d'.nodes := by
  induction h generalizing ts with
  | @token k t kind =>
    obtain ⟨t', _, head, tail, rfl⟩ := List.forall₂_cons_left_iff.1 same
    cases tail
    refine ⟨.token t', .token (kinds t t' head ▸ kind), rfl, ?_⟩
    simp only [Deriv.nodes, ← kinds t t' head]
    split
    · exact .nil
    · rename_i text
      exact .cons (.leaf head (by simpa using text)) .nil
  | rule _ ih =>
    obtain ⟨d', hd, yield, nodes⟩ := ih same
    exact ⟨.rule _ d', .rule hd, yield, shape_alike kinds _ nodes⟩
  | seq _ _ iha ihb =>
    obtain ⟨ts, us, rfl, front, back⟩ := forall₂_split same
    obtain ⟨x, hx, rfl, nodes⟩ := iha front
    obtain ⟨y, hy, rfl, nodes'⟩ := ihb back
    exact ⟨.seq x y, .seq hx hy, rfl, nodes.append nodes'⟩
  | left _ ih =>
    obtain ⟨d', hd, yield, nodes⟩ := ih same
    exact ⟨.left d', .left hd, yield, nodes⟩
  | right _ ih =>
    obtain ⟨d', hd, yield, nodes⟩ := ih same
    exact ⟨.right d', .right hd, yield, nodes⟩
  | absent =>
    cases same
    exact ⟨.absent, .absent, rfl, .nil⟩
  | present _ ih =>
    obtain ⟨d', hd, yield, nodes⟩ := ih same
    exact ⟨.present d', .present hd, yield, nodes⟩
  | done =>
    cases same
    exact ⟨.done, .done, rfl, .nil⟩
  | more _ _ iha ihb =>
    obtain ⟨ts, us, rfl, front, back⟩ := forall₂_split same
    obtain ⟨x, hx, rfl, nodes⟩ := iha front
    obtain ⟨y, hy, rfl, nodes'⟩ := ihb back
    exact ⟨.more x y, .more hx hy, rfl, nodes.append nodes'⟩

end Grammar

/-- Tokens of two sources with one kind and one text, each read from its own source. -/
structure Token.SameText (source source' : Bytes) (t t' : Token) : Prop extends Token.Alike t t' where
  reads : t.kind.isLayout = false → Scanner.ReadFrom source t
  reads' : t'.kind.isLayout = false → Scanner.ReadFrom source' t'
  spelled : ∀ x, t.kind.spelling? = some x → t.value = x

section sources

open Grammar

variable {source source' : Bytes}

theorem sameText_of_alike (same : List.Forall₂ Token.Alike ts ts')
    (reads : ∀ t ∈ texts ts, Scanner.ReadFrom source t)
    (reads' : ∀ t ∈ texts ts', Scanner.ReadFrom source' t)
    (spelled : ∀ t ∈ ts, ∀ x, t.kind.spelling? = some x → t.value = x) :
    List.Forall₂ (Token.SameText source source') ts ts' := by
  induction same with
  | nil => exact .nil
  | @cons t t' ts ts' head tail ih =>
    have first : Token.SameText source source' t t' :=
      { head with
        reads := fun text => reads t (by simp [texts, text])
        reads' := fun text => reads' t' (by simp [texts, text])
        spelled := spelled t (by simp) }
    refine .cons first (ih (fun u hu => reads u ?_) (fun u hu => reads' u ?_)
      fun u hu => spelled u (by simp [hu]))
    · exact List.mem_filter.2 ⟨by simp [(List.mem_filter.1 hu).1], (List.mem_filter.1 hu).2⟩
    · exact List.mem_filter.2 ⟨by simp [(List.mem_filter.1 hu).1], (List.mem_filter.1 hu).2⟩

theorem parse_alike (h : Tree.parse source = .ok tree)
    (same : Scanner.ScansAlike (Scanner.scan source).tokens (Scanner.scan source').tokens (Scanner.scan source).fault (Scanner.scan source').fault) :
    ∃ root, Tree.parse source' = .ok ⟨root, source'⟩ ∧
      tree.root.Alike (Token.SameText source source') root := by
  obtain ⟨d, hands, derives⟩ := derives_of_parse h
  obtain ⟨n, nodes, read⟩ := parse_of_derives hands derives
  obtain rfl : tree = ⟨n, source⟩ := Except.ok.inj (h.symm.trans read)
  have sound := hands.scan_fault
  have sound' : (Scanner.scan source').fault = none := by
    simpa [sound] using same.fault.symm
  have hands' := (Scanner.scan_ends source').handsOut sound'
  have tokens := sameText_of_alike same.tokens (Scanner.scan_surrounds sound).1
    (Scanner.scan_surrounds sound').1 fun t ht => (Scanner.scan_placed ht).text
  rw [Scanner.scan_tokens hands] at tokens
  obtain ⟨d', derives', yield, nodes'⟩ := derives.alike (fun _ _ same => same.kind) tokens
  obtain ⟨n', single, read'⟩ := parse_of_derives (yield ▸ hands') derives'
  rw [nodes, single] at nodes'
  rcases nodes' with _ | ⟨alike, _⟩
  exact ⟨n', read', alike⟩

end sources

end WordScript
