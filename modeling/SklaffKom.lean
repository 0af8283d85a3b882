import SklaffKom.MoreConf
import SklaffKom.FirstText
import SklaffKom.Purge
import SklaffKom.OnlyTexts
import SklaffKom.UnreadSubject
import SklaffKom.JumpSubject
import SklaffKom.JumpTree
import SklaffKom.FootNote
import SklaffKom.Posting
import SklaffKom.Importer
import SklaffKom.Commands
import SklaffKom.Subscriptions
import SklaffKom.ConfExtra
import SklaffKom.Signals
import SklaffKom.Messages
import SklaffKom.SurveyFiles
import SklaffKom.SaveText
import SklaffKom.Sklaffrc
import SklaffKom.SurveyQuestions
import SklaffKom.LineEd
import SklaffKom.QuoteWrap
import SklaffKom.EditSave
import SklaffKom.ResumedEdit
import SklaffKom.NewsRuns
import SklaffKom.NewsThreads
import SklaffKom.IbolDb
import SklaffKom.IbolUtf8
import SklaffKom.IbolStable
import SklaffKom.IbolRecovery
import SklaffKom.IbolRuns
import SklaffKom.ConfNames
import SklaffKom.UrlPieces
import SklaffKom.UsenetDate
import SklaffKom.UserFile
import SklaffKom.UserName
import SklaffKom.ActiveFile
import SklaffKom.ActiveChange
import SklaffKom.FileIndex
import SklaffKom.NameSort
import SklaffKom.ListUser
import SklaffKom.Ftnconf
import SklaffKom.FtnconfAgree
import SklaffKom.ConfRewrite
import SklaffKom.SurveyTally
import SklaffKom.SurveyStatistics
import SklaffKom.WordBuffers
import SklaffKom.NetmailAddress
import SklaffKom.FtnBody
import SklaffKom.FtnWrap
import SklaffKom.Crashmail
import SklaffKom.MailBody
import SklaffKom.HeaderValue
import SklaffKom.FtnPlan
import SklaffKom.FtnRescan
import SklaffKom.FtnExport
import SklaffKom.FtnPending
import SklaffKom.NetmailDups
import SklaffKom.MailToss
import SklaffKom.QuotedPrintable
import SklaffKom.Base64
import SklaffKom.LetterConversion
import SklaffKom.DisplayWidth
import SklaffKom.Output
import SklaffKom.MailReply
import SklaffKom.Typing
import SklaffKom.Input
import SklaffKom.DisplayName
import SklaffKom.Blocklist
import SklaffKom.WrapBody
import SklaffKom.IbolRender
import SklaffKom.CleanupText
import SklaffKom.SetupUser
import SklaffKom.Lib.Processes
import SklaffKom.Lib.Copies
import SklaffKom.FtnWrite
import SklaffKom.FtnAreas
import SklaffKom.FtnSpool
import SklaffKom.FtnLock
import SklaffKom.NetmailExport
import SklaffKom.FtnDate
import SklaffKom.IbolExport
import SklaffKom.FtnConfs
import SklaffKom.FtnSignature
import SklaffKom.FtnGate
import SklaffKom.FtnThreads
import SklaffKom.Flags
import SklaffKom.FtnNetwork
