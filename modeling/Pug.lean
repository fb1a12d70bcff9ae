import Pug.Expression.Dictated
import Pug.Main
import Pug.Proofs.Reader.Ensures
import Pug.Proofs.Source.Path
import Pug.Proofs.Reading.Account
import Pug.Proofs.Reading.Basic
import Pug.Proofs.Reading.Step
import Pug.Proofs.Reading.Attribute
import Pug.Proofs.Reading.Text
import Pug.Proofs.Reading.Tag
import Pug.Proofs.Reading.Directive
import Pug.Proofs.Reading.Line
import Pug.Proofs.Layout.Outline
import Pug.Proofs.Reading.Page
import Pug.Proofs.Text.LineEnding
import Pug.Proofs.Token.Recast
import Pug.Proofs.Lockstep.Basic
import Pug.Proofs.Lockstep.Attribute
import Pug.Proofs.Lockstep.Tag
import Pug.Proofs.Lockstep.Directive
import Pug.Proofs.Lockstep.Expression
import Pug.Proofs.Lockstep.Code
import Pug.Proofs.Lockstep.Line
import Pug.Proofs.Layout.Steps
import Pug.Proofs.Layout.Onto
import Pug.Proofs.Lockstep.Page
import Pug.Proofs.Lockstep.Template
import Pug.Proofs.Template
import Pug.Proofs.Layout.Inner
import Pug.Proofs.Layout.Chain
import Pug.Proofs.Layout.Forest
import Pug.Proofs.Layout.Levels
import Pug.Proofs.Lockstep.Chain
import Pug.Proofs.Layout.Document
import Pug.Proofs.Layout.Tree
import Pug.Proofs.Layout.Course
import Pug.Proofs.Text.ExtentEnding
import Pug.Proofs.Lockstep.Checked
import Pug.Proofs.Lockstep.Ending
import Pug.Proofs.Lockstep.Concat
import Pug.Proofs.Layout.Unit
import Pug.Proofs.Grammar.Rules
import Pug.Proofs.Grammar.Payload
import Pug.Proofs.Grammar.Tree
import Pug.Proofs.Grammar.TextOwner
import Pug.Proofs.Grammar.MixinDefinition
import Pug.Proofs.Expression.Grammar
import Pug.Proofs.Expression.Delimited
import Pug.Proofs.Expression.Shape
import Pug.Proofs.Expression.Torn
import Pug.Proofs.Expression.Pieces
import Pug.Proofs.Expression.Conditional
import Pug.Proofs.Expression.Formula
import Pug.Proofs.Print.Phrase
import Pug.Proofs.Print.Yields
import Pug.Proofs.Print.Sketch
import Pug.Proofs.Print.Page
import Pug.Proofs.Print.Attribute
import Pug.Proofs.Print.Tag
import Pug.Proofs.Print.Text
import Pug.Proofs.Print.Passage
import Pug.Proofs.Print.TagLine
import Pug.Proofs.Print.Chain
import Pug.Proofs.Print.AttributeName
import Pug.Proofs.Print.AttributeList
import Pug.Proofs.Layout.Verbatim
import Pug.Proofs.Text.Tiling
import Pug.Proofs.Layout.LineOrder
import Pug.Proofs.Layout.Outcome
import Pug.Proofs.Lockstep.Blank
import Pug.Proofs.Layout.PlainTree
import Pug.Proofs.Layout.Building
import Pug.Proofs.Grammar.Depth
import Pug.Proofs.Layout.Nesting
import Pug.Proofs.Print.Staircase
import Pug.Proofs.Print.Directive
import Pug.Proofs.Layout.OneLine
import Pug.Proofs.Print.CodeBlock
import Pug.Proofs.Print.Comment
import Pug.Proofs.Lockstep.FinalBreak
import Pug.Proofs.Text.Quoted
import Pug.Proofs.Token.Dump
import Pug.Proofs.Source.Position
import Pug.Proofs.Source.Foothold
import Pug.Proofs.Landing.Basic
import Pug.Proofs.Landing.Expression
import Pug.Proofs.Landing.Tag
import Pug.Proofs.Landing.Line
import Pug.Proofs.Landing.Page
import Pug.Proofs.Landing.Diagnostic
import Pug.Proofs.CommandLine.Folder
